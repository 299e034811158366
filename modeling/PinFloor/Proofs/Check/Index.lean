import PinFloor.Check
import PinFloor.Proofs.Places

/-! # The index of the findings

Findings are added with the help of an index that says where the diagnostic of a finding stands.
The index is exact after every addition, so adding with it comes to the same as a search through
the diagnostics.
-/

namespace PinFloor

namespace Diagnostic

/-- Adds a finding made in an environment by a search: to the first diagnostic of the same finding,
    if there is one, else at the end. -/
def insert (environment : TargetEnvironment) (severity : Severity) (finding : Finding) :
    List Diagnostic → List Diagnostic
  | [] => [⟨finding, severity, [environment]⟩]
  | d :: rest =>
      if d.finding.same finding then d.alsoIn environment :: rest
      else d :: insert environment severity finding rest

variable {environment : TargetEnvironment} {severity : Severity} {finding : Finding}

theorem insert_of_new {ds : List Diagnostic} (new : ∀ d ∈ ds, d.finding.same finding = false) :
    insert environment severity finding ds = ds ++ [⟨finding, severity, [environment]⟩] := by
  induction ds with
  | nil => rfl
  | cons d rest ih =>
      have differs := new d List.mem_cons_self
      simp [insert, differs, ih fun x member => new x (List.mem_cons_of_mem _ member)]

theorem insert_of_first {ds : List Diagnostic} {place : Nat} {d : Diagnostic}
    (there : ds[place]? = some d) (same : d.finding.same finding = true)
    (first : ∀ earlier < place, ∀ x, ds[earlier]? = some x → x.finding.same finding = false) :
    insert environment severity finding ds = ds.set place (d.alsoIn environment) := by
  induction ds generalizing place with
  | nil => cases there
  | cons head rest ih =>
      cases place with
      | zero =>
          obtain rfl : head = d := Option.some.inj there
          simp [insert, same]
      | succ place =>
          have differs : head.finding.same finding = false :=
            first 0 (Nat.succ_pos place) head rfl
          have behind := ih there fun earlier before =>
            first (earlier + 1) (Nat.succ_lt_succ before)
          simp [insert, differs, behind]

end Diagnostic

namespace Findings

/-- What is added to the findings at a time. -/
structure Addition where
  environment : TargetEnvironment
  severity : Severity
  finding : Finding

/-- Adds one thing after the other. -/
def addAll (fs : Findings) (added : List Addition) : Findings :=
  added.foldl (fun fs a => fs.add a.environment a.severity a.finding) fs

/-- The index has a finding at a place exactly if the diagnostic there is of that finding. -/
def Exact (fs : Findings) : Prop :=
  ∀ f place, fs.place? f = some place ↔
    ∃ d, fs.diagnostics[place]? = some d ∧ d.finding.same f = true

section

variable {fs : Findings} {environment : TargetEnvironment} {severity : Severity} {f g : Finding}
  {place : Nat} {d : Diagnostic}

theorem place_congr (same : f.same g = true) : fs.place? f = fs.place? g := by
  have alike (entry : Finding × Nat) : entry.1.same f = entry.1.same g := by
    rw [Finding.same_comm, Finding.same_congr same, Finding.same_comm]
  simp only [place?, alike]

theorem add_of_known (known : fs.place? f = some place)
    (there : fs.diagnostics[place]? = some d) :
    (fs.add environment severity f).diagnostics
        = fs.diagnostics.set place (d.alsoIn environment) ∧
      (fs.add environment severity f).index = fs.index := by
  rw [add]
  split
  · next other found =>
      obtain rfl : other = place := Option.some.inj (found.symm.trans known)
      obtain ⟨inside, rfl⟩ := List.getElem?_eq_some_iff.mp there
      exact ⟨rfl, rfl⟩
  · next unknown =>
      rw [unknown] at known
      cases known

theorem add_of_new (new : fs.place? f = none) :
    (fs.add environment severity f).diagnostics
        = fs.diagnostics ++ [⟨f, severity, [environment]⟩] ∧
      (fs.add environment severity f).index = (f, fs.diagnostics.length) :: fs.index := by
  rw [add]
  split
  · next known =>
      rw [new] at known
      cases known
  · exact ⟨rfl, rfl⟩

theorem place_add_of_new (new : fs.place? f = none) :
    (fs.add environment severity f).place? g
      = if f.same g then some fs.diagnostics.length else fs.place? g := by
  rw [place?, (add_of_new new).2, List.find?_cons]
  cases f.same g <;> rfl

theorem exact_empty : empty.Exact := by
  intro f place
  simp [empty, place?]

theorem Exact.place_eq (exact : fs.Exact) (there : fs.diagnostics[place]? = some d)
    (same : d.finding.same f = true) : fs.place? f = some place :=
  (exact f place).mpr ⟨d, there, same⟩

theorem Exact.differs_of_new (exact : fs.Exact) (new : fs.place? f = none) :
    ∀ d ∈ fs.diagnostics, d.finding.same f = false := by
  intro d member
  obtain ⟨place, there⟩ := List.mem_iff_getElem?.mp member
  refine Bool.eq_false_iff.mpr fun same => ?_
  rw [exact.place_eq there same] at new
  cases new

/-- Each diagnostic stays of the finding that it is of. -/
theorem Exact.add_known (exact : fs.Exact) (known : fs.place? f = some place) :
    (fs.add environment severity f).Exact := by
  obtain ⟨d, there, -⟩ := (exact f place).mp known
  obtain ⟨diagnostics, index⟩ : (fs.add environment severity f).diagnostics = _ ∧ _ :=
    add_of_known known there
  intro g other
  rw [place?, index, ← place?, exact g other, diagnostics]
  by_cases here : place = other
  · subst here
    rw [List.getElem?_set_self (place_lt known), there]
    simp
  · rw [List.getElem?_set_ne here]

/-- The new diagnostic stands behind the last one, and no other is of its finding. -/
theorem Exact.add_new (exact : fs.Exact) (new : fs.place? f = none) :
    (fs.add environment severity f).Exact := by
  intro g other
  have last (d x : Diagnostic) : (fs.diagnostics ++ [x])[other]? = some d ↔
      fs.diagnostics[other]? = some d ∨ (fs.diagnostics.length = other ∧ x = d) := by
    grind
  rw [place_add_of_new new, (add_of_new new).1]
  simp only [last, or_and_right, exists_or, ← exact g other]
  cases same : f.same g with
  | false => simp [same]
  | true =>
      have unknown : fs.place? g = none := place_congr same ▸ new
      rw [if_pos rfl, unknown, Option.some_inj]
      constructor
      · exact fun last => .inr ⟨_, ⟨last, rfl⟩, same⟩
      · rintro (⟨⟨⟩⟩ | ⟨_, ⟨last, -⟩, -⟩)
        exact last

theorem Exact.add (exact : fs.Exact) : (fs.add environment severity f).Exact := by
  cases known : fs.place? f with
  | some place => exact exact.add_known known
  | none => exact exact.add_new known

theorem Exact.addAll (exact : fs.Exact) (added : List Addition) : (fs.addAll added).Exact := by
  induction added generalizing fs with
  | nil => exact exact
  | cons a rest ih => exact ih exact.add

theorem Exact.diagnostics_add (exact : fs.Exact) :
    (fs.add environment severity f).diagnostics
      = Diagnostic.insert environment severity f fs.diagnostics := by
  cases known : fs.place? f with
  | some place =>
      obtain ⟨d, there, same⟩ := (exact f place).mp known
      rw [(add_of_known known there).1, Diagnostic.insert_of_first there same]
      intro earlier before x found
      refine Bool.eq_false_iff.mpr fun alike => Nat.ne_of_lt before ?_
      exact Option.some.inj ((exact.place_eq found alike).symm.trans known)
  | none => rw [(add_of_new known).1, Diagnostic.insert_of_new (exact.differs_of_new known)]

theorem Exact.diagnostics_addAll (exact : fs.Exact) (added : List Addition) :
    (fs.addAll added).diagnostics = added.foldl
      (fun ds a => Diagnostic.insert a.environment a.severity a.finding ds) fs.diagnostics := by
  induction added generalizing fs with
  | nil => rfl
  | cons a rest ih => exact (ih exact.add).trans (by rw [exact.diagnostics_add, List.foldl_cons])

end

end Findings

end PinFloor
