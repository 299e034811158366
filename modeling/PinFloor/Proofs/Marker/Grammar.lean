import PinFloor.Marker.Parser
import Mathlib.Data.List.TakeWhile

/-! # The grammar of markers

Reading a marker follows a grammar: a disjunction of conjunctions of comparisons and markers in
parentheses. What is read, and what is left of the text, is exactly what the grammar derives.
-/

namespace PinFloor.Marker

/-! ## Comparisons -/

section

variable {cs rest : List Char}

/-- A character of a word between the two sides of a comparison. -/
def inWord (c : Char) : Bool :=
  !isBlank c && c ≠ '\'' && c ≠ '"'

theorem operand?_quote {c : Char} (quote : c = '\'' ∨ c = '"') (text : List Char) :
    operand? (c :: text) = match text.dropWhile (· ≠ c) with
      | _ :: after => some (.quoted (text.takeWhile (· ≠ c)), after)
      | [] => none := by
  rw [operand?]
  refine (if_pos (by simpa using quote)).trans ?_
  cases text.dropWhile (· ≠ c) <;> rfl

theorem operand?_name {c : Char} (plain : c ≠ '\'' ∧ c ≠ '"') (text : List Char) :
    operand? (c :: text) = (operandNamed? (String.ofList ((c :: text).takeWhile (!endsName ·)))).map
      fun key => (key, (c :: text).dropWhile (!endsName ·)) := by
  rw [operand?, if_neg (by simpa using plain)]
  have behind : (c :: text).drop ((c :: text).takeWhile (!endsName ·)).length
      = (c :: text).dropWhile (!endsName ·) := by
    have whole := List.takeWhile_append_dropWhile (p := (!endsName ·)) (l := c :: text)
    have same := congrArg (List.drop ((c :: text).takeWhile (!endsName ·)).length) whole
    rw [List.drop_left] at same
    exact same.symm
  simp only [behind]

theorem takeWhile_ne {c : Char} {text value : List Char} (absent : c ∉ value) :
    (value ++ c :: text).takeWhile (· ≠ c) = value ∧
      (value ++ c :: text).dropWhile (· ≠ c) = c :: text := by
  have other : ∀ d ∈ value, decide (d ≠ c) = true := by
    intro d inside
    simp only [decide_eq_true_eq]
    rintro rfl
    exact absent inside
  rw [List.takeWhile_append_of_pos other, List.dropWhile_append_of_pos other]
  simp

/-- A side of a comparison is a text between quotes of one kind, or a name. -/
theorem operand?_eq_some_iff {x : Operand} : operand? cs = some (x, rest) ↔
    (∃ quote value, (quote = '\'' ∨ quote = '"') ∧ quote ∉ value ∧
      cs = quote :: (value ++ quote :: rest) ∧ x = .quoted value) ∨
    (∀ c, cs.head? = some c → c ≠ '\'' ∧ c ≠ '"') ∧
      operandNamed? (String.ofList (cs.takeWhile (!endsName ·))) = some x ∧
      rest = cs.dropWhile (!endsName ·) := by
  cases cs with
  | nil =>
      have unnamed : operandNamed? (String.ofList []) = none := by decide
      simp [operand?, unnamed]
  | cons c text =>
      by_cases quote : c = '\'' ∨ c = '"'
      · rw [operand?_quote quote]
        constructor
        · intro read
          split at read
          · next d after found =>
              cases read
              have stop := List.head?_dropWhile_not (· ≠ c) text
              have whole := List.takeWhile_append_dropWhile (p := (· ≠ c)) (l := text)
              rw [found] at stop whole
              obtain rfl : d = c := by simpa using stop
              refine .inl ⟨d, _, quote, fun inside => ?_, by rw [whole], rfl⟩
              simpa using List.mem_takeWhile_imp inside
          · cases read
        · rintro (⟨_, value, -, absent, same, rfl⟩ | ⟨plain, -⟩)
          · cases same
            rw [(takeWhile_ne absent).2, (takeWhile_ne absent).1]
          · obtain ⟨single, double⟩ := plain c rfl
            exact absurd quote (by simp [single, double])
      · rw [operand?_name (by simpa using quote), Option.map_eq_some_iff]
        constructor
        · rintro ⟨key, named, same⟩
          cases same
          refine .inr ⟨?_, named, rfl⟩
          rintro _ ⟨⟩
          simpa using quote
        · rintro (⟨_, _, quote', -, same, -⟩ | ⟨-, named, rfl⟩)
          · cases same
            exact absurd quote' quote
          · exact ⟨x, named, rfl⟩

theorem relation?_letter (letter : ∃ t, cs = 'i' :: t ∨ cs = 'n' :: t) :
    relation? cs = match String.ofList (cs.takeWhile inWord) with
      | "in" => some (Relation.isIn, cs.dropWhile inWord)
      | "not" =>
          match cs.dropWhile inWord with
          | c :: rest =>
              match isBlank c, trimStart rest with
              | true, 'i' :: 'n' :: rest => some (.isNotIn, rest)
              | _, _ => none
          | [] => none
      | _ => none := by
  obtain ⟨t, rfl | rfl⟩ := letter <;> rfl

theorem relation?_word {r : Relation} (letter : ∃ t, cs = 'i' :: t ∨ cs = 'n' :: t) :
    relation? cs = some (r, rest) ↔
      (cs.takeWhile inWord = ['i', 'n'] ∧ rest = cs.dropWhile inWord ∧ r = .isIn) ∨
      ∃ c after, cs.takeWhile inWord = ['n', 'o', 't'] ∧ cs.dropWhile inWord = c :: after ∧
        isBlank c = true ∧ trimStart after = 'i' :: 'n' :: rest ∧ r = .isNotIn := by
  rw [relation?_letter letter]
  constructor
  · intro read
    split at read
    · next name =>
        cases read
        exact .inl ⟨by simpa using congrArg String.toList name, rfl, rfl⟩
    · next name =>
        split at read
        · next c after behind =>
            split at read
            · next blank start =>
                cases read
                exact .inr ⟨c, after, by simpa using congrArg String.toList name, behind, blank,
                  start, rfl⟩
            · cases read
        · cases read
    · cases read
  · rintro (⟨name, rfl, rfl⟩ | ⟨c, after, name, behind, blank, start, rfl⟩)
    · rw [name]
      rfl
    · rw [name, behind]
      simp only [blank, start]

theorem relation?_sign (other : ¬ ∃ t, cs = 'i' :: t ∨ cs = 'n' :: t) :
    relation? cs = match Operator.ofSign? (cs.takeWhile Operator.isSignChar) with
      | none | some .identical => none
      | some operator => some (.compare operator, cs.dropWhile Operator.isSignChar) := by
  unfold relation?
  split
  · exact absurd ⟨_, .inl rfl⟩ other
  · exact absurd ⟨_, .inr rfl⟩ other
  · rfl

/-- The two sides of a comparison are related by a sign, by `in`, or by `not` and `in`. -/
theorem relation?_eq_some_iff {r : Relation} : relation? cs = some (r, rest) ↔
    (∃ operator, operator ≠ .identical ∧
      Operator.ofSign? (cs.takeWhile Operator.isSignChar) = some operator ∧
      rest = cs.dropWhile Operator.isSignChar ∧ r = .compare operator) ∨
    (cs.takeWhile inWord = ['i', 'n'] ∧ rest = cs.dropWhile inWord ∧ r = .isIn) ∨
    ∃ c after, cs.takeWhile inWord = ['n', 'o', 't'] ∧ cs.dropWhile inWord = c :: after ∧
      isBlank c = true ∧ trimStart after = 'i' :: 'n' :: rest ∧ r = .isNotIn := by
  have unsigned : Operator.ofSign? [] = none := by decide
  by_cases letter : ∃ t, cs = 'i' :: t ∨ cs = 'n' :: t
  · have signs : cs.takeWhile Operator.isSignChar = [] := by
      obtain ⟨t, rfl | rfl⟩ := letter <;> rfl
    rw [relation?_word letter, signs, unsigned]
    simp
  · have noWord {n : List Char} (name : cs.takeWhile inWord = n) :
        n ≠ ['i', 'n'] ∧ n ≠ ['n', 'o', 't'] := by
      obtain ⟨t, whole⟩ := name ▸ List.takeWhile_prefix inWord (l := cs)
      exact ⟨fun same => letter ⟨_, .inl (by rw [← whole, same]; rfl)⟩,
        fun same => letter ⟨_, .inr (by rw [← whole, same]; rfl)⟩⟩
    rw [relation?_sign letter]
    constructor
    · intro read
      split at read
      · cases read
      · cases read
      · next operator plain found =>
          cases read
          exact .inl ⟨operator, fun same => plain same, found, rfl, rfl⟩
    · rintro (⟨operator, plain, found, rfl, rfl⟩ | ⟨name, -⟩ | ⟨c, after, name, -⟩)
      · rw [found]
        split
        · next none => cases none
        · next same => cases same; exact absurd rfl plain
        · next same => cases same; rfl
      · exact absurd rfl (noWord name).1
      · exact absurd rfl (noWord name).2

end

/-! ## Parts -/

/-- What is read of a marker. -/
inductive Part where
  /-- A comparison, or a marker in parentheses. -/
  | primary
  /-- Parts joined by `and`. -/
  | conjunction
  /-- What `and` joins to the parts before. -/
  | conjuncts (found : Option Marker)
  /-- Parts joined by `or`. -/
  | disjunction
  /-- What `or` joins to the parts before. -/
  | disjuncts (found : Option Marker)

/-- A part stands at the start of a text and leaves the rest. -/
inductive Reads : Part → List Char → Option Marker → List Char → Prop where
  | parens {cs inner rest : List Char} {m : Option Marker} : trimStart cs = '(' :: inner →
      Reads .disjunction inner m (')' :: rest) → Reads .primary cs m rest
  | comparison {cs rest : List Char} {m : Option Marker} :
      (∀ inner, trimStart cs ≠ '(' :: inner) → comparison? cs = some (m, rest) →
      rest.length < cs.length → Reads .primary cs m rest
  | conjunction {cs rest rest' : List Char} {first m : Option Marker} :
      Reads .primary cs first rest → Reads (.conjuncts first) rest m rest' →
      Reads .conjunction cs m rest'
  | lastConjunct {cs : List Char} {found : Option Marker} : afterWord? ['a', 'n', 'd'] cs = none →
      Reads (.conjuncts found) cs found (trimStart cs)
  | conjunct {cs rest rest' rest'' : List Char} {found next m : Option Marker} :
      afterWord? ['a', 'n', 'd'] cs = some rest → Reads .primary rest next rest' →
      Reads (.conjuncts (join and found next)) rest' m rest'' → Reads (.conjuncts found) cs m rest''
  | disjunction {cs rest rest' : List Char} {first m : Option Marker} :
      Reads .conjunction cs first rest → Reads (.disjuncts first) rest m rest' →
      Reads .disjunction cs m rest'
  | lastDisjunct {cs : List Char} {found : Option Marker} : afterWord? ['o', 'r'] cs = none →
      Reads (.disjuncts found) cs found (trimStart cs)
  | disjunct {cs rest rest' rest'' : List Char} {found next m : Option Marker} :
      afterWord? ['o', 'r'] cs = some rest → Reads .conjunction rest next rest' →
      Reads (.disjuncts (join or found next)) rest' m rest'' → Reads (.disjuncts found) cs m rest''

/-- What the reader of a part gives, without what is known about lengths. -/
def result : Part → List Char → Option (Option Marker × List Char)
  | .primary, cs => (primary cs).map fun (m, rest) => (m, rest)
  | .conjunction, cs => (conjunction cs).map fun (m, rest) => (m, rest)
  | .conjuncts found, cs => (conjunctionTail found cs).map fun (m, rest) => (m, rest)
  | .disjunction, cs => (disjunction cs).map fun (m, rest) => (m, rest)
  | .disjuncts found, cs => (disjunctionTail found cs).map fun (m, rest) => (m, rest)

section

variable {cs inner rest : List Char} {m found : Option Marker}

theorem result_parens (start : trimStart cs = '(' :: inner) : result .primary cs =
    (result .disjunction inner).bind fun (m, left) =>
      match left with
      | close :: rest => if close = ')' then some (m, rest) else none
      | [] => none := by
  rw [result, primary, result]
  split
  · next inner' start' =>
      cases start.symm.trans start'
      rcases disjunction inner with _ | ⟨m, left, shorter⟩
      · rfl
      · cases left with
        | nil => rfl
        | cons close rest =>
            simp only [Option.map_some, Option.bind_some]
            split <;> rfl
  · next other => exact absurd start (other inner)

theorem result_comparison (plain : ∀ inner, trimStart cs ≠ '(' :: inner) : result .primary cs =
    (comparison? cs).bind fun (m, rest) =>
      if rest.length < cs.length then some (m, rest) else none := by
  rw [result, primary]
  split
  · next inner start => exact absurd start (plain inner)
  · rcases comparison? cs with _ | ⟨m, rest⟩
    · rfl
    · simp only [Option.bind_some]
      split <;> rfl

theorem result_conjunction : result .conjunction cs =
    (result .primary cs).bind fun (first, rest) => result (.conjuncts first) rest := by
  simp only [result]
  rw [Marker.conjunction]
  rcases Marker.primary cs with _ | ⟨first, rest, shorter⟩
  · rfl
  · simp only [Option.map_some, Option.bind_some]
    cases conjunctionTail first rest <;> rfl

theorem result_disjunction : result .disjunction cs =
    (result .conjunction cs).bind fun (first, rest) => result (.disjuncts first) rest := by
  simp only [result]
  rw [Marker.disjunction]
  rcases Marker.conjunction cs with _ | ⟨first, rest, shorter⟩
  · rfl
  · simp only [Option.map_some, Option.bind_some]
    cases disjunctionTail first rest <;> rfl

theorem result_conjuncts_last (last : afterWord? ['a', 'n', 'd'] cs = none) :
    result (.conjuncts found) cs = some (found, trimStart cs) := by
  rw [result, conjunctionTail]
  split
  · rfl
  · next more => cases last.symm.trans more

theorem result_conjuncts_more (word : afterWord? ['a', 'n', 'd'] cs = some rest) :
    result (.conjuncts found) cs = (result .primary rest).bind fun (next, rest') =>
      result (.conjuncts (join and found next)) rest' := by
  simp only [result]
  rw [conjunctionTail]
  split
  · next last => cases last.symm.trans word
  · next more =>
      cases word.symm.trans more
      rcases primary rest with _ | ⟨next, rest', shorter⟩
      · rfl
      · simp only [Option.map_some, Option.bind_some]
        cases conjunctionTail (join and found next) rest' <;> rfl

theorem result_disjuncts_last (last : afterWord? ['o', 'r'] cs = none) :
    result (.disjuncts found) cs = some (found, trimStart cs) := by
  rw [result, disjunctionTail]
  split
  · rfl
  · next more => cases last.symm.trans more

theorem result_disjuncts_more (word : afterWord? ['o', 'r'] cs = some rest) :
    result (.disjuncts found) cs = (result .conjunction rest).bind fun (next, rest') =>
      result (.disjuncts (join or found next)) rest' := by
  simp only [result]
  rw [disjunctionTail]
  split
  · next last => cases last.symm.trans word
  · next more =>
      cases word.symm.trans more
      rcases conjunction rest with _ | ⟨next, rest', shorter⟩
      · rfl
      · simp only [Option.map_some, Option.bind_some]
        cases disjunctionTail (join or found next) rest' <;> rfl

theorem length_lt_of_result_primary (read : result .primary cs = some (m, rest)) :
    rest.length < cs.length := by
  obtain ⟨⟨_, _, shorter⟩, -, same⟩ := Option.map_eq_some_iff.mp read
  cases same
  exact shorter

theorem length_lt_of_result_conjunction (read : result .conjunction cs = some (m, rest)) :
    rest.length < cs.length := by
  obtain ⟨⟨_, _, shorter⟩, -, same⟩ := Option.map_eq_some_iff.mp read
  cases same
  exact shorter

end

/-- What the grammar derives is read. -/
theorem Reads.result_eq {part : Part} {cs rest : List Char} {m : Option Marker}
    (reads : Reads part cs m rest) : result part cs = some (m, rest) := by
  induction reads with
  | parens start _ within => rw [result_parens start, within]; rfl
  | comparison plain read shorter =>
      simp only [result_comparison plain, read, Option.bind_some, if_pos shorter]
  | conjunction _ _ first others => simp only [result_conjunction, first, Option.bind_some, others]
  | lastConjunct last => exact result_conjuncts_last last
  | conjunct word _ _ next others =>
      simp only [result_conjuncts_more word, next, Option.bind_some, others]
  | disjunction _ _ first others => simp only [result_disjunction, first, Option.bind_some, others]
  | lastDisjunct last => exact result_disjuncts_last last
  | disjunct word _ _ next others =>
      simp only [result_disjuncts_more word, next, Option.bind_some, others]

/-- The place of a part in the order in which parts begin at one place of a text. -/
def Part.level : Part → Nat
  | .primary | .conjuncts _ | .disjuncts _ => 0
  | .conjunction => 1
  | .disjunction => 2

/-- What is read is derived by the grammar. -/
theorem reads_of_result {part : Part} {cs rest : List Char} {m : Option Marker}
    (read : result part cs = some (m, rest)) : Reads part cs m rest := by
  match part, read with
  | .primary, read =>
      by_cases plain : ∀ inner, trimStart cs ≠ '(' :: inner
      · rw [result_comparison plain] at read
        obtain ⟨⟨m, rest⟩, compared, read⟩ := Option.bind_eq_some_iff.mp read
        simp only [Option.ite_none_right_eq_some] at read
        obtain ⟨shorter, same⟩ := read
        cases same
        exact .comparison plain compared shorter
      · obtain ⟨inner, start⟩ : ∃ inner, trimStart cs = '(' :: inner := by simpa using plain
        rw [result_parens start] at read
        obtain ⟨⟨m, left⟩, within, read⟩ := Option.bind_eq_some_iff.mp read
        cases left with
        | nil => cases read
        | cons close rest =>
            simp only [Option.ite_none_right_eq_some] at read
            obtain ⟨rfl, same⟩ := read
            cases same
            have shorter : inner.length < cs.length := by
              have := length_trimStart_le cs
              rw [start, List.length_cons] at this
              omega
            exact .parens start (reads_of_result within)
  | .conjunction, read =>
      rw [result_conjunction] at read
      obtain ⟨⟨first, left⟩, primary, others⟩ := Option.bind_eq_some_iff.mp read
      have shorter := length_lt_of_result_primary primary
      exact .conjunction (reads_of_result primary) (reads_of_result others)
  | .conjuncts found, read =>
      cases word : afterWord? ['a', 'n', 'd'] cs with
      | none =>
          rw [result_conjuncts_last word] at read
          cases read
          exact .lastConjunct word
      | some behind =>
          rw [result_conjuncts_more word] at read
          obtain ⟨⟨next, left⟩, primary, others⟩ := Option.bind_eq_some_iff.mp read
          have shorter := length_of_afterWord? word
          have shorter' := length_lt_of_result_primary primary
          exact .conjunct word (reads_of_result primary) (reads_of_result others)
  | .disjunction, read =>
      rw [result_disjunction] at read
      obtain ⟨⟨first, left⟩, conjunction, others⟩ := Option.bind_eq_some_iff.mp read
      have shorter := length_lt_of_result_conjunction conjunction
      exact .disjunction (reads_of_result conjunction) (reads_of_result others)
  | .disjuncts found, read =>
      cases word : afterWord? ['o', 'r'] cs with
      | none =>
          rw [result_disjuncts_last word] at read
          cases read
          exact .lastDisjunct word
      | some behind =>
          rw [result_disjuncts_more word] at read
          obtain ⟨⟨next, left⟩, conjunction, others⟩ := Option.bind_eq_some_iff.mp read
          have shorter := length_of_afterWord? word
          have shorter' := length_lt_of_result_conjunction conjunction
          exact .disjunct word (reads_of_result conjunction) (reads_of_result others)
termination_by (cs.length, part.level)
decreasing_by
  · exact Prod.Lex.left _ _ shorter
  · exact Prod.Lex.right _ Nat.zero_lt_one
  · exact Prod.Lex.left _ _ shorter
  · exact Prod.Lex.left _ _ shorter
  · exact Prod.Lex.left _ _ (Nat.lt_trans shorter' shorter)
  · exact Prod.Lex.right _ Nat.one_lt_two
  · exact Prod.Lex.left _ _ shorter
  · exact Prod.Lex.left _ _ shorter
  · exact Prod.Lex.left _ _ (Nat.lt_trans shorter' shorter)

theorem parse?_eq (cs : List Char) : parse? cs = match result .disjunction cs with
    | some (found, []) => some (found.getD (leaf true))
    | _ => none := by
  rw [parse?, result]
  rcases disjunction cs with _ | ⟨found, _ | ⟨c, rest⟩, shorter⟩ <;> rfl

theorem parse?_eq_some_iff {cs : List Char} {m : Marker} : parse? cs = some m ↔
    ∃ found, Reads .disjunction cs found [] ∧ m = found.getD (leaf true) := by
  rw [parse?_eq]
  constructor
  · intro read
    split at read
    · next found found_eq =>
        cases read
        exact ⟨found, reads_of_result found_eq, rfl⟩
    · cases read
  · rintro ⟨found, reads, rfl⟩
    rw [reads.result_eq]

end PinFloor.Marker
