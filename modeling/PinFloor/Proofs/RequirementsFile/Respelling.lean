import PinFloor.Proofs.RequirementsFile.NameSpelling

/-! # Files with other spellings of names

In a file the names of named entries are written in other ways, and all else stays as it is. The
statements that are read from it are the same, on the same lines.
-/

namespace PinFloor

open Scanner Requirement PackageName

variable {admits : Source → List Char → Prop} {cs ds u v : List Char}

/-- Whether an entry with this source may be written with this spelling of its name. A bare name must
    not look like the file name of an archive. -/
def Admissible (source : Source) (n : List Char) : Prop :=
  ¬ (source = .any ∧ looksLikeArchive n = true)

/-- A text whose statements can all be read, and the text with other spellings of the names of some
    named entries. `admits` says which spelling an entry with some source may get. -/
inductive Respelled (admits : Source → List Char → Prop) : List Char → List Char → Prop where
  | nil {cs : List Char} : skipTrivia cs = [] → Respelled admits cs cs
  /-- The next statement stays as it is. -/
  | keep {before cs rest rest' : List Char} {statement : Statement} :
      skipTrivia (before ++ (cs ++ rest)) = cs ++ rest →
      statement? (cs ++ rest) = some (.ok (statement, rest)) →
      Respelled admits rest rest' →
      Respelled admits (before ++ (cs ++ rest)) (before ++ (cs ++ rest'))
  /-- The next statement is a named entry, and gets another spelling of its name on as many lines. -/
  | respell {before w w' n n' cs rest rest' : List Char} {requirement : Requirement}
      {hashes : List String} :
      skipTrivia (before ++ (w ++ (cs ++ rest))) = w ++ (cs ++ rest) →
      statement? (w ++ (cs ++ rest)) = some (.ok (.requirement requirement hashes, rest)) →
      NameText w n → EndsNameText (cs ++ rest) →
      NameText w' n' → collapse n = collapse n' → lineEnds w' = lineEnds w →
      admits requirement.source n' →
      Respelled admits rest rest' →
      Respelled admits (before ++ (w ++ (cs ++ rest))) (before ++ (w' ++ (cs ++ rest')))

/-! ## Where statements start -/

namespace Scanner

variable {c : Char} {t rest : List Char}

theorem start_of_skipGap (start : skipGap cs = c :: t) :
    isGap c = false ∧ (c = '\\' → startsBreak t = false) := by
  induction cs using text_induction with
  | nil => cases start
  | @char d cs plain single ih =>
      cases gap : isGap d with
      | true =>
          rw [skipGap_gap gap] at start
          exact ih start
      | false =>
          rw [skipGap_plain gap single] at start
          cases start
          exact ⟨gap, single⟩
  | joined ends ih =>
      rw [skipGap_joined ends] at start
      exact ih start
  | lineEnd ends =>
      rw [skipGap_lineEnd ends] at start
      subst start
      refine ⟨?_, ?_⟩
      · rcases break_cases ends.startsBreak with rfl | rfl <;> rfl
      · rintro rfl
        cases ends.startsBreak

/-- What stands at the start of a statement. -/
theorem start_of_skipTrivia (start : skipTrivia cs = c :: t) : isGap c = false ∧
    isBreak c = false ∧ c ≠ '#' ∧ (c = '\\' → startsBreak t = false) := by
  fun_induction skipTrivia cs with
  | case1 _ _ _ ih | case2 _ _ _ ih | case3 _ _ _ ih | case4 _ _ _ _ ih => exact ih start
  | case5 cs comment newline _ ret =>
      obtain ⟨gap, single⟩ := start_of_skipGap start
      have plain : isBreak c = false := by simp_all [isBreak]
      exact ⟨gap, plain, fun hash => comment t (hash ▸ start), single⟩

theorem skipTrivia_inName (inside : inName c = true) (t : List Char) :
    skipTrivia (c :: t) = c :: t :=
  skipTrivia_of_other (skipGap_inName inside t) (not_break_of_inName inside) (ne_of_inName inside rfl)

/-- No statement is empty. -/
theorem ne_nil_of_statement? {st : Statement}
    (scanned : statement? (u ++ rest) = some (.ok (st, rest))) : u ≠ [] := by
  rintro rfl
  exact absurd (length_lt_of_statement? scanned) (Nat.lt_irrefl _)

/-- What is skipped before a statement is skipped before it whatever follows it. -/
theorem skipTrivia_statement {before : List Char} {st : Statement}
    (scanned : statement? (u ++ rest) = some (.ok (st, rest))) (more : rest ≠ [])
    (skipped : skipTrivia (before ++ (u ++ rest)) = u ++ rest) (r : List Char) :
    skipTrivia (before ++ (u ++ r)) = u ++ r := by
  have closed := ((endsAtLine_of_statement? scanned).closed more).1
  have some : u ++ rest ≠ [] := fun none => more (List.append_eq_nil_iff.mp none).2
  refine skipTrivia_append skipped some ?_
  cases u with
  | nil => exact absurd rfl closed.ne_nil
  | cons c u =>
      obtain ⟨gap, plain, comment, single⟩ := start_of_skipTrivia skipped
      refine skipTrivia_of_other (skipGap_plain gap fun slash => ?_) plain comment
      have opens := single slash
      cases u with
      | nil => exact absurd rfl (closed.of_cons plain).ne_nil
      | cons d u => exact opens

end Scanner

theorem NameText.head_inName {w n : List Char} (text : NameText w n) :
    ∃ c t, w = c :: t ∧ inName c = true := by
  obtain ⟨c, first, letter⟩ := text.name.first
  obtain ⟨t, rfl⟩ := List.head?_eq_some_iff.mp (text.head.trans first)
  exact ⟨c, t, rfl, inName_of_alphanum letter⟩

theorem NameText.skipTrivia {w n : List Char} (text : NameText w n) (t : List Char) :
    Scanner.skipTrivia (w ++ t) = w ++ t := by
  obtain ⟨c, more, rfl, inside⟩ := text.head_inName
  exact skipTrivia_inName inside (more ++ t)

namespace Respelled

/-- Every text whose statements can all be read may stay as it is. -/
theorem refl {content cs : List Char} (parses : (Script.readFrom content cs).fault? = none) :
    Respelled admits cs cs := by
  obtain ⟨before, whole⟩ := skipTrivia_suffix cs
  cases scanned : Scanner.statement? (Scanner.skipTrivia cs) with
  | none => exact .nil (statement?_eq_none scanned)
  | some result =>
      cases result with
      | error refusal =>
          rw [Script.readFrom_of_error scanned] at parses
          cases parses
      | ok result =>
          obtain ⟨st, rest⟩ := result
          rw [Script.readFrom_of_ok scanned] at parses
          obtain ⟨u, same⟩ := (endsAtLine_of_statement? scanned).suffix
          have shorter : rest.length < cs.length := Nat.lt_of_lt_of_le
            (length_lt_of_statement? scanned) (length_skipTrivia_le cs)
          have parses : (Script.readFrom content rest).fault? = none := parses
          have later : Respelled admits rest rest := refl parses
          have kept : Respelled admits (before ++ (u ++ rest)) (before ++ (u ++ rest)) :=
            .keep (by rw [same, whole]) (by rw [same, scanned]) later
          rwa [same, whole] at kept
termination_by cs.length

/-- Every named entry may get another spelling of its name. -/
theorem of_entry {before start rest rest' : List Char} {r : Requirement} {hashes : List String}
    (skipped : Scanner.skipTrivia (before ++ start) = start)
    (scanned : Scanner.statement? start = some (.ok (.requirement r hashes, rest)))
    (later : Respelled admits rest rest') : ∃ w n X, start = w ++ (X ++ rest) ∧ NameText w n ∧
      r.name = ⟨String.ofList (collapse n)⟩ ∧ ∀ w' n', NameText w' n' → collapse n = collapse n' →
        lineEnds w' = lineEnds w → admits r.source n' →
        Respelled admits (before ++ start) (before ++ (w' ++ (X ++ rest'))) := by
  obtain ⟨w, n, X, rfl, text, ends, named⟩ := exists_nameText scanned
  exact ⟨w, n, X, rfl, text, named, fun _ _ text' same lines admitted =>
    .respell skipped scanned text ends text' same lines admitted later⟩

theorem eq_nil (respelled : Respelled admits cs ds) (nothing : cs = []) : ds = [] := by
  cases respelled with
  | nil => exact nothing
  | keep _ scanned =>
      have inside := (List.append_eq_nil_iff.mp nothing).2
      exact absurd (List.append_eq_nil_iff.mp inside).1 (ne_nil_of_statement? scanned)
  | respell _ _ text =>
      have inside := (List.append_eq_nil_iff.mp nothing).2
      exact absurd (List.append_eq_nil_iff.mp inside).1 text.spells.ne_nil

/-- A respelled text starts with the second half of a line end only if the text does. -/
theorem head_newline (respelled : Respelled admits cs ds) (newline : ds.head? = some '\n') :
    cs.head? = some '\n' := by
  cases respelled with
  | nil => exact newline
  | @keep before cs _ _ _ _ scanned =>
      have some := ne_nil_of_statement? scanned
      cases before <;> cases cs <;> simp_all
  | @respell before _ _ _ _ _ _ _ _ _ _ _ _ _ second =>
      cases before with
      | nil =>
          obtain ⟨c, t, rfl, inside⟩ := second.head_inName
          cases newline
          cases inside
      | cons c before => exact newline

theorem uncut {rest rest' : List Char} (respelled : Respelled admits rest rest')
    (cut : Uncut u rest) : Uncut u rest' :=
  fun ret newline => cut ret (respelled.head_newline newline)

/-- A statement is read as it was before a respelled text. -/
theorem statement? {rest rest' : List Char} (respelled : Respelled admits rest rest')
    {st : Statement} (scanned : Scanner.statement? (u ++ rest) = some (.ok (st, rest))) :
    Scanner.statement? (u ++ rest') = some (.ok (st, rest')) := by
  by_cases nothing : rest = []
  · rw [nothing] at scanned
    rwa [respelled.eq_nil nothing]
  · have line := endsAtLine_of_statement? scanned
    exact statement?_append nothing scanned (respelled.uncut (line.closed nothing).2)

/-- What is skipped before a statement is skipped before it if a respelled text follows. -/
theorem skipTrivia {before rest rest' : List Char} (respelled : Respelled admits rest rest')
    {st : Statement} (scanned : Scanner.statement? (u ++ rest) = some (.ok (st, rest)))
    (skipped : Scanner.skipTrivia (before ++ (u ++ rest)) = u ++ rest) :
    Scanner.skipTrivia (before ++ (u ++ rest')) = u ++ rest' := by
  by_cases nothing : rest = []
  · rw [nothing] at skipped
    rwa [respelled.eq_nil nothing]
  · exact skipTrivia_statement scanned nothing skipped rest'

end Respelled

/-! ## Lines -/

/-- Two texts with the same number of line ends, whatever follows both. -/
def SameLines (u v : List Char) : Prop :=
  ∀ t, lineEnds (u ++ t) = lineEnds (v ++ t)

theorem SameLines.append (same : SameLines u v) (t : List Char) : SameLines (u ++ t) (v ++ t) := by
  intro more
  rw [List.append_assoc, List.append_assoc]
  exact same (t ++ more)

theorem SameLines.nameText {w w' n n' : List Char} (same : SameLines u v) (first : NameText w n)
    (second : NameText w' n') (lines : lineEnds w' = lineEnds w) : SameLines (u ++ w) (v ++ w') := by
  have parts : ∀ {w n}, NameText w n → ∀ before t,
      lineEnds (before ++ (w ++ t)) = lineEnds before + (lineEnds w + lineEnds t) := by
    intro w n text before t
    have cut : Uncut before (w ++ t) := by
      obtain ⟨c, more, rfl, inside⟩ := text.head_inName
      have opens : startsBreak (c :: more ++ t) = false := not_break_of_inName inside
      exact .of_startsBreak opens before
    rw [lineEnds_append cut, lineEnds_append (text.spells.uncut t)]
  intro t
  rw [List.append_assoc, List.append_assoc, same, parts first, parts second, lines]

/-! ## Scripts -/

namespace Script

/-- The script of a text is that of what follows its first statement, with this statement before. -/
theorem readFrom_next {pre before start rest : List Char} {st : Statement}
    (skipped : skipTrivia (before ++ start) = start)
    (scanned : statement? start = some (.ok (st, rest))) :
    readFrom (pre ++ (before ++ start)) (before ++ start) =
      (readFrom (pre ++ (before ++ start)) rest).cons ⟨lineEnds (pre ++ before) + 1, st⟩ := by
  have line : (Position.ofRest (pre ++ (before ++ start)) start).line = lineEnds (pre ++ before) + 1 := by
    rw [← List.append_assoc]
    exact Position.line_ofRest (pre ++ before) start
  rw [readFrom_of_ok (skipped.symm ▸ scanned), skipped, line]

end Script

namespace Respelled

theorem readFrom (respelled : Respelled Admissible cs ds) (lines : SameLines u v) :
    Script.readFrom (v ++ ds) ds = Script.readFrom (u ++ cs) cs := by
  induction respelled generalizing u v with
  | nil nothing =>
      have none : ∀ t, Scanner.skipTrivia t = [] → Scanner.statement? (Scanner.skipTrivia t) = none :=
        fun t nothing => by rw [nothing]; rfl
      rw [Script.readFrom_of_none (none _ nothing), Script.readFrom_of_none (none _ nothing)]
  | @keep before cs rest rest' st skipped scanned later ih =>
      have here := lines.append before
      have next := ih (here.append cs)
      have line : lineEnds (v ++ before) = lineEnds (u ++ before) := by
        simpa using (here []).symm
      simp only [List.append_assoc] at next
      rw [Script.readFrom_next skipped scanned,
        Script.readFrom_next (later.skipTrivia scanned skipped) (later.statement? scanned), next, line]
  | @respell before w w' n n' cs rest rest' r hashes skipped scanned first ends second same lines'
      admitted later ih =>
      have here := lines.append before
      have next := ih ((here.nameText first second lines').append cs)
      have line : lineEnds (v ++ before) = lineEnds (u ++ before) := by
        simpa using (here []).symm
      have scanned' := statement?_respelled first second same lines' ends scanned admitted
      rw [← List.append_assoc] at scanned'
      have read := later.statement? scanned'
      rw [List.append_assoc] at read
      have some : w ++ (cs ++ rest) ≠ [] := fun none =>
        first.spells.ne_nil (List.append_eq_nil_iff.mp none).1
      have skipped' := skipTrivia_append skipped some (second.skipTrivia (cs ++ rest'))
      simp only [List.append_assoc] at next
      rw [Script.readFrom_next skipped scanned, Script.readFrom_next skipped' read, next, line]

/-- With other spellings of names a text has the same script. -/
theorem read (respelled : Respelled Admissible cs ds) : Script.read ds = Script.read cs :=
  respelled.readFrom (u := []) (v := []) fun _ => rfl

end Respelled

/-! ## Lines with a bare name -/

variable {n n' : List Char}

theorem endsNameText_newline : EndsNameText ['\n'] := by
  intro line joins
  rw [splitStatement_lineEnd .lf] at joins
  rw [joins.unique .nil]
  exact endsName_nil

theorem Respelled.bareName (same : SameName n n') (plain : looksLikeArchive n = false)
    (admitted : admits .any n') : Respelled admits (n ++ ['\n']) (n' ++ ['\n']) := by
  have scanned := statement?_bareName same.left
  rw [plain] at scanned
  have first := NameText.of_isName same.left
  have second := NameText.of_isName same.right
  have lines : lineEnds n' = lineEnds n := by rw [lineEnds_name same.left, lineEnds_name same.right]
  have respelled : Respelled admits ([] ++ (n ++ (['\n'] ++ []))) ([] ++ (n' ++ (['\n'] ++ []))) :=
    .respell (first.skipTrivia _) scanned first endsNameText_newline second same.collapse lines
      admitted (.nil (skipTrivia_of_nil rfl))
  exact respelled

theorem Script.read_bareName (name : IsName n) : Script.read (n ++ ['\n']) =
    if looksLikeArchive n then ⟨[], some (.invalidRequirement 1)⟩
    else ⟨[⟨1, .requirement (bareRequirement n) []⟩], none⟩ := by
  have scanned := statement?_bareName name
  have trivia := (NameText.of_isName name).skipTrivia ['\n']
  have start : Position.ofRest (n ++ ['\n']) (n ++ ['\n']) = .start :=
    (Position.Reaches.refl _).ofRest_eq
  rw [Script.read]
  cases archive : looksLikeArchive n with
  | true =>
      rw [archive] at scanned
      rw [Script.readFrom_of_error (trivia.symm ▸ scanned), trivia, Scanner.Refusal.fault, start]
      rfl
  | false =>
      rw [archive] at scanned
      rw [Script.readFrom_of_statement _ trivia scanned, start, Script.readFrom_nil]
      rfl

end PinFloor
