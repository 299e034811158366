import PinFloor.Proofs.Marker.Grammar
import PinFloor.Proofs.Requirement.Names
import PinFloor.Proofs.Text.Comments
import PinFloor.Proofs.Version.Canonical

/-! # The questions of a marker

Combining diagrams asks no new question, so all questions of a marker come from its comparisons. The
texts in these stand in the text that was read.
-/

namespace PinFloor

/-- The value a cut is at. -/
def Cut.value {α : Type} : Cut α → α
  | before value | after value => value

/-- A question whose texts start no comment. -/
def Question.IsUncommented : Question → Prop
  | version _ _ => True
  | text _ cut => Uncommented cut.value.toList
  | within _ whole => Uncommented whole.toList
  | holding _ part => Uncommented part.toList
  | extra name => PackageName.IsName name.text.toList

namespace PackageName

variable {cs : List Char} {c : Char}

theorem collapse_concat (letter : c.isAlphanum = true) (cs : List Char) :
    collapse (cs ++ [c]) = collapse cs ++ [c.toLower] := by
  induction cs with
  | nil => exact collapse_letter letter []
  | cons d cs ih =>
      have next : (cs ++ [c]).head?.any isSeparator = cs.head?.any isSeparator := by
        cases cs with
        | nil => exact not_separator_of_alphanum letter
        | cons => rfl
      rw [List.cons_append, collapse, collapse, next, ih]
      split
      · split <;> rfl
      · rfl

/-- The normal form of a name is a name. -/
theorem IsName.collapse (name : IsName cs) : IsName (collapse cs) where
  chars := by
    have chars := name.chars
    clear name
    induction cs with
    | nil => nofun
    | cons c cs ih =>
        obtain ⟨first, others⟩ := List.forall_mem_cons.mp chars
        have rest := ih others
        rw [PackageName.collapse]
        split
        · split
          · exact rest
          · exact List.forall_mem_cons.mpr ⟨.inl rfl, rest⟩
        · next plain =>
            exact List.forall_mem_cons.mpr
              ⟨.inr (Version.alphanum_toLower (first.resolve_left plain)), rest⟩
  first := by
    obtain ⟨c, first, letter⟩ := name.first
    obtain ⟨more, rfl⟩ := List.head?_eq_some_iff.mp first
    exact ⟨c.toLower, by rw [collapse_letter letter]; rfl, Version.alphanum_toLower letter⟩
  last := by
    obtain ⟨c, last, letter⟩ := name.last
    obtain ⟨more, rfl⟩ := List.getLast?_eq_some_iff.mp last
    exact ⟨c.toLower, by simp [collapse_concat letter], Version.alphanum_toLower letter⟩

theorem isName_of_parse {s : String} {name : PackageName} (read : parse s = .ok name) :
    IsName name.text.toList := by
  unfold parse at read
  split at read
  · next normal found =>
      cases read
      obtain ⟨valid, rfl⟩ := normalize?_eq_some_iff.mp found
      rw [String.toList_ofList]
      exact valid.collapse
  · cases read

end PackageName

namespace Marker

variable {P : Question → Prop} {q : Question} {a b yes no : Marker}

/-- All questions of a diagram have a property. -/
def All (P : Question → Prop) : Marker → Prop
  | leaf _ => True
  | node question yes no => P question ∧ yes.All P ∧ no.All P

namespace All

theorem ask (here : P q) (left : yes.All P) (right : no.All P) : (ask q yes no).All P := by
  unfold Marker.ask
  split
  · exact left
  · split
    · split
      · exact right
      · exact ⟨here, left, right⟩
    · exact ⟨here, left, right⟩

theorem under (cut : Question) (all : a.All P) : (a.under cut).All P := by
  induction a with
  | leaf => exact all
  | node question yes no yesIh =>
      unfold Marker.under
      split
      · exact yesIh all.2.1
      · exact all

theorem combine (op : Bool → Bool → Bool) (first : a.All P) (second : b.All P) :
    (combine op a b).All P := by
  fun_induction Marker.combine op a b with
  | case1 => trivial
  | case2 a t yes no left right => exact .ask second.1 (left first second.2.1) (right first second.2.2)
  | case3 s yes no b left right => exact .ask first.1 (left first.2.1 second) (right first.2.2 second)
  | case4 s yes no t yes' no' _ left right =>
      exact .ask first.1 (left first.2.1 (second.under s)) (right first.2.2 second)
  | case5 s yes no t yes' no' _ left right =>
      exact .ask first.1 (left first.2.1 second.2.1) (right first.2.2 second.2.2)
  | case6 s yes no t yes' no' _ left right =>
      exact .ask second.1 (left (first.under t) second.2.1) (right first second.2.2)

theorem not (all : a.All P) : a.not.All P := by
  induction a with
  | leaf => trivial
  | node question yes no yesIh noIh => exact ⟨all.1, yesIh all.2.1, noIh all.2.2⟩

theorem ofQuestion (here : P q) : (ofQuestion q).All P :=
  ⟨here, trivial, trivial⟩

section

variable {α : Type} {question : Cut α → Question}

theorem between {lower upper : Option (Cut α)} (low : ∀ cut ∈ lower, P (question cut))
    (high : ∀ cut ∈ upper, P (question cut)) : (between question lower upper).All P := by
  cases lower with
  | none =>
      cases upper with
      | none => trivial
      | some => exact ⟨high _ rfl, trivial, trivial⟩
  | some =>
      cases upper with
      | none => exact ⟨low _ rfl, trivial, trivial⟩
      | some => exact ⟨low _ rfl, trivial, high _ rfl, trivial, trivial⟩

theorem onLine {upper : α → α} {value : α} (here : ∀ cut, cut.value = value → P (question cut))
    (next : P (question (.before (upper value)))) (operator : Operator) :
    (onLine question upper value operator).All P := by
  have before : ∀ cut ∈ some (Cut.before value), P (question cut) := by
    rintro _ ⟨⟩
    exact here _ rfl
  have after : ∀ cut ∈ some (Cut.after value), P (question cut) := by
    rintro _ ⟨⟩
    exact here _ rfl
  have next : ∀ cut ∈ some (Cut.before (upper value)), P (question cut) := by
    rintro _ ⟨⟩
    exact next
  have none : ∀ cut ∈ (none : Option (Cut α)), P (question cut) := nofun
  cases operator with
  | equal | identical => exact .between before after
  | notEqual => exact .not (.between before after)
  | less => exact .between none before
  | atMost => exact .between none after
  | greater => exact .between after none
  | atLeast => exact .between before none
  | matching | compatible => exact .between before next
  | notMatching => exact .not (.between before next)

end

theorem join {x y : Option Marker} (op : Bool → Bool → Bool) (first : ∀ m ∈ x, m.All P)
    (second : ∀ m ∈ y, m.All P) : ∀ m ∈ Marker.join (Marker.combine op) x y, m.All P := by
  cases x with
  | none => exact second
  | some x =>
      cases y with
      | none => exact first
      | some y =>
          rintro _ ⟨⟩
          exact .combine op (first x rfl) (second y rfl)

end All

/-! ## Comparisons -/

section

variable {cs rest value : List Char} {m : Marker}

theorem all_ofRelease (key : VersionVariable) (operator : Operator) (release : List Nat) :
    (ofRelease key operator release).All Question.IsUncommented := by
  unfold ofRelease
  exact .onLine (fun _ _ => trivial) trivial operator

theorem all_ofPythonVersion (operator : Operator) (release : List Nat) :
    (ofPythonVersion operator release).All Question.IsUncommented := by
  have pair (given : List Nat) (major minor : Nat) :
      (ofPythonVersion.ofPair operator given major minor).All Question.IsUncommented := by
    unfold ofPythonVersion.ofPair
    split <;> exact all_ofRelease _ _ _
  unfold ofPythonVersion
  split
  · split <;> trivial
  · exact pair _ _ _
  · exact pair _ _ _
  · trivial

theorem all_ofVersion (key : VersionVariable) (operator : Operator) (version : Version) :
    (ofVersion key operator version).All Question.IsUncommented := by
  unfold ofVersion
  split
  · exact all_ofPythonVersion _ _
  · exact all_ofRelease _ _ _

theorem all_ofOneVersion (key : VersionVariable) (version : Version) : (match key with
    | .pythonVersion => ofPythonVersion .equal version.release
    | _ => ofRelease key .equal version.release).All Question.IsUncommented := by
  split
  · exact all_ofPythonVersion _ _
  · exact all_ofRelease _ _ _

theorem all_ofVersions (key : VersionVariable) (negated : Bool) (versions : List Version) :
    (ofVersions key negated versions).All Question.IsUncommented := by
  have union {f : Version → Marker} {start : Marker}
      (each : ∀ v, (f v).All Question.IsUncommented) (first : start.All Question.IsUncommented) :
      (versions.foldl (fun marker version => marker.or (f version)) start).All
        Question.IsUncommented := by
    induction versions generalizing start with
    | nil => exact first
    | cons v versions ih => exact ih (.combine _ first (each v))
  simp only [ofVersions]
  split
  · trivial
  · split
    · exact .not (union (all_ofOneVersion key) trivial)
    · exact union (all_ofOneVersion key) trivial

theorem all_of_ofText? {key : TextVariable} {operator : Operator} {value : String}
    (text : Uncommented value.toList) (compared : ofText? key operator value = some m) :
    m.All Question.IsUncommented := by
  unfold ofText? at compared
  split at compared
  · cases compared
  · cases compared
    exact .onLine (fun cut same => by rw [Question.IsUncommented, same]; exact text) text operator

theorem all_of_ofExtra? {relation : Relation} {value : String}
    (compared : ofExtra? relation value = some m) : m.All Question.IsUncommented := by
  unfold ofExtra? at compared
  cases named : PackageName.parse value with
  | ok name =>
      have is : (ofQuestion (.extra name)).All Question.IsUncommented :=
        .ofQuestion (PackageName.isName_of_parse named)
      simp only [named] at compared
      split at compared <;> cases compared
      · exact is
      · exact .not is
  | error =>
      simp only [named] at compared
      split at compared <;> cases compared <;> trivial

/-- A side of a comparison whose text starts no comment. -/
def Operand.IsUncommented : Operand → Prop
  | .quoted value => Uncommented value
  | _ => True

theorem all_of_ofComparison? {left right : Operand} {relation : Relation}
    (first : Operand.IsUncommented left) (second : Operand.IsUncommented right)
    (compared : ofComparison? left relation right = some m) : m.All Question.IsUncommented := by
  have plain {value : List Char} (text : Uncommented value) :
      Uncommented (String.ofList value).toList := by rwa [String.toList_ofList]
  unfold ofComparison? at compared
  split at compared
  · simp only [Option.bind_eq_bind, Option.bind_eq_some_iff] at compared
    obtain ⟨_, -, _, -, same⟩ := compared
    cases same
    exact all_ofVersion _ _ _
  · obtain ⟨_, -, same⟩ := Option.map_eq_some_iff.mp compared
    cases same
    exact all_ofVersions _ _ _
  · obtain ⟨_, -, same⟩ := Option.map_eq_some_iff.mp compared
    cases same
    exact all_ofVersions _ _ _
  · simp only [Option.bind_eq_bind, Option.bind_eq_some_iff] at compared
    obtain ⟨_, -, _, -, same⟩ := compared
    cases same
    exact all_ofVersion _ _ _
  · exact all_of_ofText? (plain second) compared
  · cases compared
    exact .ofQuestion (plain second)
  · cases compared
    exact .not (.ofQuestion (plain second))
  · exact all_of_ofText? (plain first) compared
  · cases compared
    exact .ofQuestion (plain first)
  · cases compared
    exact .not (.ofQuestion (plain first))
  · exact all_of_ofExtra? compared
  · exact all_of_ofExtra? compared
  · cases compared

/-! ## Reading -/

theorem uncommented_of_operand? {x : Operand} (text : Uncommented cs)
    (read : operand? cs = some (x, rest)) : Operand.IsUncommented x ∧ Uncommented rest := by
  rcases operand?_eq_some_iff.mp read with ⟨quote, value, -, -, rfl, rfl⟩ | ⟨-, named, rfl⟩
  · exact ⟨text.of_isInfix ⟨[quote], quote :: rest, by simp⟩,
      text.of_isInfix ⟨quote :: (value ++ [quote]), [], by simp⟩⟩
  · refine ⟨?_, text.dropWhile _⟩
    unfold operandNamed? at named
    split at named
    · cases named
      trivial
    · split at named
      · cases named
        trivial
      · obtain ⟨key, -, rfl⟩ := Option.map_eq_some_iff.mp named
        trivial

theorem uncommented_of_relation? {relation : Relation} (text : Uncommented cs)
    (read : relation? cs = some (relation, rest)) : Uncommented rest := by
  rcases relation?_eq_some_iff.mp read with ⟨_, -, -, rfl, -⟩ | ⟨-, rfl, -⟩ |
    ⟨c, after, -, behind, -, start, -⟩
  · exact text.dropWhile _
  · exact text.dropWhile _
  · have first : after <:+ cs := (List.suffix_cons c after).trans
      (behind ▸ List.dropWhile_suffix _)
    have second : 'i' :: 'n' :: rest <:+ after := start ▸ List.dropWhile_suffix _
    exact text.of_isInfix (((List.suffix_cons 'n' rest).trans
      ((List.suffix_cons 'i' _).trans second)).trans first).isInfix

theorem uncommented_of_comparison? {found : Option Marker} (text : Uncommented cs)
    (read : comparison? cs = some (found, rest)) :
    (∀ m ∈ found, m.All Question.IsUncommented) ∧ Uncommented rest := by
  simp only [comparison?, Option.bind_eq_bind, Option.bind_eq_some_iff] at read
  obtain ⟨⟨left, _⟩, first, ⟨relation, _⟩, related, ⟨right, _⟩, second, same⟩ := read
  cases same
  obtain ⟨left, text⟩ := uncommented_of_operand? (text.dropWhile _) first
  obtain ⟨right, text⟩ :=
    uncommented_of_operand? ((uncommented_of_relation? (text.dropWhile _) related).dropWhile _) second
  exact ⟨fun m compared => all_of_ofComparison? left right compared, text⟩

/-- What is found before a part is read. -/
def Part.found : Part → Option Marker
  | conjuncts found | disjuncts found => found
  | _ => none

/-- The questions that are read start no comment if the text does not. -/
theorem Reads.all {part : Part} {found : Option Marker} (reads : Reads part cs found rest)
    (text : Uncommented cs) (before : ∀ m ∈ part.found, m.All Question.IsUncommented) :
    (∀ m ∈ found, m.All Question.IsUncommented) ∧ Uncommented rest := by
  have behind {word cs rest : List Char} (text : Uncommented cs)
      (read : afterWord? word cs = some rest) : Uncommented rest := by
    unfold afterWord? at read
    split at read
    · cases read
      exact (text.dropWhile isBlank).of_isInfix (List.drop_suffix _ _).isInfix
    · cases read
  have nothing : ∀ m ∈ (none : Option Marker), m.All Question.IsUncommented := by simp
  induction reads with
  | parens start _ ih =>
      have inner := text.dropWhile isBlank
      rw [← trimStart, start] at inner
      obtain ⟨all, rest⟩ := ih inner.tail nothing
      exact ⟨all, rest.tail⟩
  | comparison _ read _ => exact uncommented_of_comparison? text read
  | conjunction _ _ first others =>
      obtain ⟨all, text⟩ := first text nothing
      exact others text all
  | lastConjunct => exact ⟨before, text.dropWhile _⟩
  | conjunct word _ _ next others =>
      obtain ⟨all, text⟩ := next (behind text word) nothing
      exact others text (.join Bool.and before all)
  | disjunction _ _ first others =>
      obtain ⟨all, text⟩ := first text nothing
      exact others text all
  | lastDisjunct => exact ⟨before, text.dropWhile _⟩
  | disjunct word _ _ next others =>
      obtain ⟨all, text⟩ := next (behind text word) nothing
      exact others text (.join Bool.or before all)

theorem all_of_parse? (text : Uncommented cs) (read : parse? cs = some m) :
    m.All Question.IsUncommented := by
  obtain ⟨found, reads, rfl⟩ := parse?_eq_some_iff.mp read
  cases found with
  | none => trivial
  | some m => exact (reads.all text (by simp [Part.found])).1 m rfl

end

end Marker

end PinFloor
