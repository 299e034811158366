import PinFloor.Marker.Canonical
import PinFloor.Proofs.Marker.Questions
import PinFloor.Proofs.Text.Decimal

/-! # Written markers start no comments

The terms of a canonical text are made from the questions of the diagram, and bringing branches
together or leaving terms out makes no new ones. A text in a term stands between quotes.
-/

namespace PinFloor

open Scanner

theorem Decimal.plain_digits (n : Nat) : Plain (Decimal.digits n) :=
  .of_class (p := Char.isDigit) (by decide) (Decimal.isDigit_of_mem_digits n)

theorem Version.plain_releaseText (release : List Nat) : Plain (Version.releaseText release).toList := by
  rw [Version.releaseText, String.toList_intercalate]
  refine forall_mem_intercalate (by simp [isBreak]) fun part member => ?_
  simp only [List.map_map, List.mem_map, Function.comp, Decimal.text, String.toList_ofList] at member
  obtain ⟨n, -, rfl⟩ := member
  exact Decimal.plain_digits n

/-! ## Terms -/

/-- A term whose text starts no comment. -/
def Term.IsQuiet (t : Term) : Prop :=
  Quiet t.write.toList

namespace Term

theorem quiet_quoted {s : String} (text : Uncommented s.toList) : Quiet (quoted s).toList := by
  have whole : (quoted s).toList = '\'' :: (s.toList ++ ['\'']) := by simp [quoted]
  rw [whole]
  exact .quoted text

theorem quiet_versionName (key : VersionVariable) : Quiet key.name.toList := by
  cases key <;> exact .of_plain (by simp [Plain, VersionVariable.name, isBreak])

theorem quiet_textName (key : TextVariable) : Quiet key.name.toList := by
  cases key <;>
    exact .of_plain (by simp [Plain, TextVariable.name, TextVariable.present, TextVariable.spelling, isBreak])

theorem quiet_sign (operator : Operator) : Quiet operator.sign.toList := by
  cases operator <;> exact .of_plain (by simp [Plain, Operator.sign, isBreak])

theorem quiet_space : Quiet " ".toList :=
  .of_plain (by simp [Plain, isBreak])

/-- The relation between a variable and a text of which one is a part of the other. -/
theorem quiet_relation (negated : Bool) :
    Quiet (if negated then " not in " else " in ").toList := by
  cases negated <;> exact .of_plain (by simp [Plain, isBreak])

theorem isQuiet_version (key : VersionVariable) (operator : Operator) (release : List Nat) :
    (version key operator release).IsQuiet := by
  have ending : Quiet (if operator.isWildcard then ".*" else "").toList := by
    cases operator.isWildcard <;> exact .of_plain (by simp [Plain, isBreak])
  simp only [IsQuiet, write, String.toList_append]
  refine .append (.append (.append (.append (quiet_versionName key) quiet_space)
    (quiet_sign operator)) quiet_space) (quiet_quoted ?_)
  rw [String.toList_append]
  exact (Quiet.of_plain (Version.plain_releaseText release)).append_quiet ending

theorem isQuiet_text (key : TextVariable) (operator : Operator) {value : String}
    (text : Uncommented value.toList) : (Term.text key operator value).IsQuiet := by
  simp only [IsQuiet, write, String.toList_append]
  exact .append (.append (.append (.append (quiet_textName key) quiet_space)
    (quiet_sign operator)) quiet_space) (quiet_quoted text)

theorem isQuiet_within (key : TextVariable) (negated : Bool) {whole : String}
    (text : Uncommented whole.toList) : (within key negated whole).IsQuiet := by
  simp only [IsQuiet, write, String.toList_append]
  exact .append (.append (quiet_textName key) (quiet_relation negated)) (quiet_quoted text)

theorem isQuiet_holding (key : TextVariable) (negated : Bool) {part : String}
    (text : Uncommented part.toList) : (holding key negated part).IsQuiet := by
  simp only [IsQuiet, write, String.toList_append]
  exact .append (.append (quiet_quoted text) (quiet_relation negated)) (quiet_textName key)

theorem isQuiet_extra (negated : Bool) {name : PackageName}
    (valid : PackageName.IsName name.text.toList) : (extra negated name).IsQuiet := by
  have word : Quiet "extra ".toList := .of_plain (by simp [Plain, isBreak])
  have sign : Quiet (if negated then "!=" else "==").toList := by
    cases negated <;> exact .of_plain (by simp [Plain, isBreak])
  have solid : Solid name.text.toList := fun c inside =>
    solid_of (p := Requirement.inName) (by decide) (Requirement.inName_of_isName valid inside)
  simp only [IsQuiet, write, String.toList_append]
  exact .append (.append (.append word sign) quiet_space) (quiet_quoted solid.uncommented)

end Term

/-! ## Clauses -/

namespace Clause

variable {R : Term → Prop} {clauses done kept others : List Clause} {clause front : Clause}

/-- All terms of some clauses have a property. -/
def Every (R : Term → Prop) (clauses : List Clause) : Prop :=
  ∀ clause ∈ clauses, ∀ term ∈ clause, R term

theorem forall_mem_prune (kept : ∀ term ∈ front, R term) (given : ∀ term ∈ clause, R term) :
    ∀ term ∈ prune others front clause, R term := by
  induction clause generalizing front with
  | nil => exact kept
  | cons term clause ih =>
      obtain ⟨first, rest⟩ := List.forall_mem_cons.mp given
      rw [prune]
      split
      · exact ih kept rest
      · exact ih (List.forall_mem_append.mpr ⟨kept, by simpa using first⟩) rest

namespace Every

theorem append (first : Every R done) (second : Every R kept) : Every R (done ++ kept) :=
  List.forall_mem_append.mpr ⟨first, second⟩

theorem concat (first : Every R done) (last : ∀ term ∈ clause, R term) :
    Every R (done ++ [clause]) :=
  first.append (by simpa [Every] using last)

theorem pruneAll (ready : Every R done) (given : Every R clauses) :
    Every R (pruneAll done clauses) := by
  induction clauses generalizing done with
  | nil => exact ready
  | cons clause clauses ih =>
      obtain ⟨first, rest⟩ := List.forall_mem_cons.mp given
      exact ih (ready.concat (forall_mem_prune nofun first)) rest

theorem dropCovered (ready : Every R kept) (given : Every R clauses) :
    Every R (dropCovered kept clauses) := by
  induction clauses generalizing kept with
  | nil => exact ready
  | cons clause clauses ih =>
      obtain ⟨first, rest⟩ := List.forall_mem_cons.mp given
      rw [Clause.dropCovered]
      split
      · exact ih ready rest
      · exact ih (ready.concat first) rest

theorem simplify (every : Every R clauses) : Every R (simplify clauses) :=
  .dropCovered nofun (.pruneAll nofun every)

end Every

theorem quiet_write (quiet : ∀ term ∈ clause, term.IsQuiet) : Quiet clause.write.toList := by
  rw [write, String.toList_intercalate]
  refine .intercalate (.of_plain (by simp [Plain, isBreak])) ?_
  simpa [Term.IsQuiet] using quiet

theorem quiet_writeAll (every : Every Term.IsQuiet clauses) : Quiet (writeAll clauses).toList := by
  have parts : Quiet (String.intercalate " or " (clauses.map fun clause =>
      if clause.length = 1 then clause.write else "(" ++ clause.write ++ ")")).toList := by
    rw [String.toList_intercalate]
    refine .intercalate (.of_plain (by simp [Plain, isBreak])) fun part member => ?_
    simp only [List.map_map, List.mem_map, Function.comp] at member
    obtain ⟨clause, member, rfl⟩ := member
    have inner := quiet_write (every clause member)
    split
    · exact inner
    · simp only [String.toList_append]
      exact .append (.append (.of_plain (by simp [Plain, isBreak])) inner) (.of_plain (by simp [Plain, isBreak]))
  unfold writeAll
  split
  · exact quiet_write (every _ List.mem_cons_self)
  · exact parts

end Clause

/-! ## Lines -/

section

variable {α : Type} {P : α → Prop} {line : Line α} {intervals : List (Interval α)}

/-- The ends of an interval have a property. -/
def Interval.All (P : α → Prop) (interval : Interval α) : Prop :=
  (∀ cut ∈ interval.1, P cut.value) ∧ ∀ cut ∈ interval.2, P cut.value

namespace Line

/-- A line whose values with a property are written quietly. -/
structure IsQuiet (line : Line α) (P : α → Prop) : Prop where
  term : ∀ operator value, P value → (line.term operator value).IsQuiet
  family : ∀ v w u, P v → P w → line.family? v w = some u → P u

theorem forall_mem_gaps? {points : List α} (all : ∀ i ∈ intervals, i.All P)
    (found : line.gaps? intervals = some points) : ∀ v ∈ points, P v := by
  fun_induction gaps? line intervals generalizing points with
  | case1 =>
      cases found
      nofun
  | case2 lower v w upper rest _ ih =>
      obtain ⟨first, others⟩ := List.forall_mem_cons.mp all
      obtain ⟨points, later, rfl⟩ := Option.map_eq_some_iff.mp found
      exact List.forall_mem_cons.mpr ⟨first.2 _ rfl, ih others later⟩
  | case3 | case4 => cases found

namespace IsQuiet

theorem endTerms (quiet : line.IsQuiet P) {interval : Interval α} (all : interval.All P) :
    ∀ term ∈ line.endTerms interval, term.IsQuiet := by
  have lower (cut : Cut α) (holds : P cut.value) : (line.lowerTerm cut).IsQuiet := by
    cases cut <;> exact quiet.term _ _ holds
  have upper (cut : Cut α) (holds : P cut.value) : (line.upperTerm cut).IsQuiet := by
    cases cut <;> exact quiet.term _ _ holds
  obtain ⟨low, high⟩ := all
  intro term member
  rcases List.mem_append.mp member with member | member
  · obtain ⟨cut, first, rfl⟩ := Option.map_eq_some_iff.mp (Option.mem_toList.mp member)
    exact lower cut (low cut first)
  · obtain ⟨cut, second, rfl⟩ := Option.map_eq_some_iff.mp (Option.mem_toList.mp member)
    exact upper cut (high cut second)

theorem clause (quiet : line.IsQuiet P) {interval : Interval α} (all : interval.All P) :
    ∀ term ∈ line.clause interval, term.IsQuiet := by
  unfold Line.clause
  split
  · next v _ =>
      split
      · have holds : P v := all.1 _ rfl
        simpa using quiet.term .equal v holds
      · exact quiet.endTerms all
  · split
    · next u found =>
        have holds : P u := quiet.family _ _ _ (all.1 _ rfl) (all.2 _ rfl) found
        simpa using quiet.term .matching u holds
    · exact quiet.endTerms all
  · exact quiet.endTerms all

theorem ways (quiet : line.IsQuiet P) (all : ∀ i ∈ intervals, i.All P) :
    Clause.Every Term.IsQuiet (line.ways intervals) := by
  unfold Line.ways
  split
  · next points missing =>
      have points : ∀ v ∈ points, P v := by
        unfold missing? at missing
        split at missing
        · exact forall_mem_gaps? all missing
        · cases missing
      simpa [Clause.Every] using fun v member => quiet.term .notEqual v (points v member)
  · split
    · next u missing =>
        have holds : P u := by
          unfold missingFamily? at missing
          split at missing
          · obtain ⟨first, others⟩ := List.forall_mem_cons.mp all
            exact quiet.family _ _ _ (first.2 _ rfl)
              ((others _ List.mem_cons_self).1 _ rfl) missing
          · cases missing
        simpa [Clause.Every] using quiet.term .notMatching u holds
    · intro clause member
      obtain ⟨interval, given, rfl⟩ := List.mem_map.mp member
      exact quiet.clause (all interval given)

end IsQuiet

theorem isQuiet_ofVersion (key : VersionVariable) : (ofVersion key).IsQuiet fun _ => True :=
  ⟨fun operator release _ => Term.isQuiet_version key operator release, fun _ _ _ _ _ _ => trivial⟩

theorem isQuiet_ofText (key : TextVariable) :
    (ofText key).IsQuiet fun value => Uncommented value.toList :=
  ⟨fun operator _ text => Term.isQuiet_text key operator text, nofun⟩

end Line

/-! ## Branches -/

namespace Marker

variable {m yes no : Marker} {question : Question}

theorem all_of_mem_pieces {cut? : Question → Option (Cut α)} {lower : Option (Cut α)}
    (cuts : ∀ q cut, q.IsUncommented → cut? q = some cut → P cut.value)
    (below : ∀ cut ∈ lower, P cut.value) (all : m.All Question.IsUncommented) :
    ∀ p ∈ pieces cut? lower m, p.1.All P ∧ p.2.All Question.IsUncommented := by
  induction m generalizing lower with
  | leaf => simpa [pieces, Interval.All] using ⟨below, all⟩
  | node question yes no _ noIh =>
      rw [pieces]
      split
      · next cut found =>
          have here : ∀ c ∈ some cut, P c.value := by
            rintro _ ⟨⟩
            exact cuts question cut all.1 found
          exact List.forall_mem_cons.mpr ⟨⟨⟨below, here⟩, all.2.1⟩, noIh here all.2.2⟩
      · simpa [Interval.All] using ⟨below, all⟩

theorem all_of_mem_gather {ps : List (Interval α × Marker)}
    (all : ∀ p ∈ ps, p.1.All P ∧ p.2.All Question.IsUncommented) :
    ∀ g ∈ gather ps, (∀ i ∈ g.1, i.All P) ∧ g.2.All Question.IsUncommented := by
  induction ps with
  | nil => nofun
  | cons p ps ih =>
      obtain ⟨first, others⟩ := List.forall_mem_cons.mp all
      have found := ih others
      refine List.forall_mem_cons.mpr ⟨⟨List.forall_mem_cons.mpr ⟨first.1, fun i member => ?_⟩,
        first.2⟩, fun g member => found g (List.mem_filter.mp member).1⟩
      cases same : (gather ps).find? (·.2 == p.2) with
      | none => simp [same] at member
      | some g =>
          simp only [same, Option.map_some, Option.getD_some] at member
          exact (found g (List.mem_of_find?_eq_some same)).1 i member

theorem all_of_mem_gathered {cut? : Question → Option (Cut α)}
    (cuts : ∀ q cut, q.IsUncommented → cut? q = some cut → P cut.value)
    (all : m.All Question.IsUncommented) :
    ∀ g ∈ gather (pieces cut? none m), (∀ i ∈ g.1, i.All P) ∧ g.2.All Question.IsUncommented := by
  have below : ∀ cut ∈ (none : Option (Cut α)), P cut.value := nofun
  exact all_of_mem_gather (all_of_mem_pieces cuts below all)

theorem quiet_of_mem_branches (all : (node question yes no).All Question.IsUncommented) :
    ∀ b ∈ branches question yes no,
      Clause.Every Term.IsQuiet b.1 ∧ b.2.All Question.IsUncommented := by
  have both {t f : Term} (first : t.IsQuiet) (second : f.IsQuiet) :
      ∀ b ∈ [([[t]], yes), ([[f]], no)],
        Clause.Every Term.IsQuiet b.1 ∧ b.2.All Question.IsUncommented := by
    simpa [Clause.Every] using ⟨⟨first, all.2.1⟩, second, all.2.2⟩
  cases question with
  | version key cut =>
      intro b member
      obtain ⟨g, gathered, rfl⟩ := List.mem_map.mp member
      obtain ⟨ends, rest⟩ :=
        all_of_mem_gathered (P := fun _ => True) (fun _ _ _ _ => trivial) all g gathered
      exact ⟨(Line.isQuiet_ofVersion key).ways ends, rest⟩
  | text key cut =>
      have cuts (q : Question) (cut : Cut String) (plain : q.IsUncommented)
          (found : textCut? key q = some cut) : Uncommented cut.value.toList := by
        unfold textCut? at found
        split at found
        · split at found
          · cases found
            exact plain
          · cases found
        · cases found
      intro b member
      obtain ⟨g, gathered, rfl⟩ := List.mem_map.mp member
      obtain ⟨ends, rest⟩ :=
        all_of_mem_gathered (P := fun value : String => Uncommented value.toList) cuts all g gathered
      exact ⟨(Line.isQuiet_ofText key).ways ends, rest⟩
  | within key whole =>
      exact both (Term.isQuiet_within key false all.1) (Term.isQuiet_within key true all.1)
  | holding key part =>
      exact both (Term.isQuiet_holding key false all.1) (Term.isQuiet_holding key true all.1)
  | extra name => exact both (Term.isQuiet_extra false all.1) (Term.isQuiet_extra true all.1)

theorem quiet_clauses {m : Marker} (all : m.All Question.IsUncommented) :
    Clause.Every Term.IsQuiet m.clauses := by
  match m with
  | leaf true => simp [clauses, Clause.Every]
  | leaf false => simp [clauses, Clause.Every]
  | node question yes no =>
      intro clause member
      rw [clauses] at member
      simp only [List.mem_flatMap, List.mem_map, List.mem_attach, true_and, Subtype.exists] at member
      obtain ⟨⟨ways, rest⟩, branch, way, inside, clause, member, rfl⟩ := member
      have smaller := size_lt_of_mem_branches branch
      obtain ⟨taken, there⟩ := quiet_of_mem_branches all _ branch
      exact List.forall_mem_append.mpr ⟨taken way inside, quiet_clauses there clause member⟩
termination_by m.size

/-- A marker whose questions start no comment is written without one. -/
theorem quiet_of_text? {text : String} (all : m.All Question.IsUncommented)
    (written : m.text? = some text) : Quiet text.toList := by
  unfold text? at written
  split at written
  · cases written
  · cases written
    exact .of_plain (by simp [Plain, isBreak])
  · cases written
    exact Clause.quiet_writeAll (quiet_clauses all).simplify

end Marker

end

end PinFloor
