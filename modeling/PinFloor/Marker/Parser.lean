import PinFloor.Marker.Comparison

/-!
# Reading markers

A marker is a disjunction of conjunctions of comparisons and parenthesized markers. The names `and`
and `or` count only as words of their own, with blanks around. A part that holds nothing but
dropped comparisons is dropped too.
-/

namespace PinFloor.Marker

/-- The operand that a name stands for. -/
def operandNamed? (name : String) : Option Operand :=
  if name = "extra" then some .extra
  else
    match VersionVariable.ofName? name with
    | some key => some (.version key)
    | none => (TextVariable.ofName? name).map .text

/-- A character that ends the name of a variable. -/
def endsName (c : Char) : Bool :=
  isBlank c || c = '>' || c = '=' || c = '<' || c = '!' || c = '~' || c = ')'

/-- Reads one side of a comparison: a text in quotes of either kind, or a variable. -/
def operand? : List Char → Option (Operand × List Char)
  | [] => none
  | c :: rest =>
      if c = '\'' || c = '"' then
        match rest.dropWhile (· ≠ c) with
        | _ :: after => some (.quoted (rest.takeWhile (· ≠ c)), after)
        | [] => none
      else
        let name := (c :: rest).takeWhile (!endsName ·)
        (operandNamed? (String.ofList name)).map fun key => (key, (c :: rest).drop name.length)

/-- Reads what stands between the two sides. -/
def relation? (cs : List Char) : Option (Relation × List Char) :=
  let inWord := fun c : Char => !isBlank c && c ≠ '\'' && c ≠ '"'
  match cs with
  | 'i' :: _ | 'n' :: _ =>
      let rest := cs.dropWhile inWord
      match String.ofList (cs.takeWhile inWord) with
      | "in" => some (.isIn, rest)
      | "not" =>
          match rest with
          | c :: rest =>
              match isBlank c, trimStart rest with
              | true, 'i' :: 'n' :: rest => some (.isNotIn, rest)
              | _, _ => none
          | [] => none
      | _ => none
  | _ =>
      match Operator.ofSign? (cs.takeWhile Operator.isSignChar) with
      | none | some .identical => none
      | some operator => some (.compare operator, cs.dropWhile Operator.isSignChar)

/-- Reads a comparison. It is `none` if it is dropped. -/
def comparison? (cs : List Char) : Option (Option Marker × List Char) := do
  let (left, cs) ← operand? (trimStart cs)
  let (relation, cs) ← relation? (trimStart cs)
  let (right, cs) ← operand? (trimStart cs)
  some (ofComparison? left relation right, cs)

/-- Joins two parts, either of which may be dropped. -/
def join (op : Marker → Marker → Marker) : Option Marker → Option Marker → Option Marker
  | some a, some b => some (op a b)
  | some a, none => some a
  | none, b => b

/-- The text after a word, if the text starts with it, up to blanks, and it is a word of its own. -/
def afterWord? (word : List Char) (cs : List Char) : Option (List Char) :=
  if (trimStart cs).takeWhile (!isBlank ·) = word then some ((trimStart cs).drop word.length)
  else none

/-- Trimming does not make a text longer. -/
theorem length_trimStart_le (cs : List Char) : (trimStart cs).length ≤ cs.length :=
  (List.dropWhile_suffix _).length_le

/-- A text after a word that is not empty is shorter. -/
theorem length_of_afterWord? {w : Char} {word cs rest : List Char}
    (h : afterWord? (w :: word) cs = some rest) : rest.length < cs.length := by
  have hle := length_trimStart_le cs
  unfold afterWord? at h
  split at h
  · rename_i heq
    simp only [Option.some.injEq] at h
    subst h
    have hpos : 0 < (trimStart cs).length := by
      rcases hcs : trimStart cs with _ | ⟨c, tail⟩
      · simp [hcs] at heq
      · simp
    simp only [List.length_drop, List.length_cons]
    omega
  · cases h

/-- What a part of a marker reads: its marker, or `none` if it is dropped, and a shorter text
    after it. -/
abbrev Reading (cs : List Char) : Type :=
  Option (Option Marker × { rest : List Char // rest.length < cs.length })

/-- What the rest of a chain of parts reads; there may be none. -/
abbrev Tail (cs : List Char) : Type :=
  Option (Option Marker × { rest : List Char // rest.length ≤ cs.length })

mutual

/-- Reads a comparison or a marker in parentheses. -/
def primary (cs : List Char) : Reading cs :=
  match h : trimStart cs with
  | '(' :: inner =>
      match disjunction inner with
      | some (marker, ⟨close :: rest, hrest⟩) =>
          if close = ')' then
            some (marker, ⟨rest, by
              have := length_trimStart_le cs
              simp only [h, List.length_cons] at this hrest
              omega⟩)
          else none
      | _ => none
  | _ =>
      match comparison? cs with
      | some (marker, rest) =>
          if hrest : rest.length < cs.length then some (marker, ⟨rest, hrest⟩) else none
      | none => none
termination_by (cs.length, 0)
decreasing_by
  have := length_trimStart_le cs
  simp only [h, List.length_cons] at this
  exact Prod.Lex.left _ _ (by omega)

/-- Reads parts joined by `and`. -/
def conjunction (cs : List Char) : Reading cs :=
  match primary cs with
  | none => none
  | some (first, ⟨rest, hrest⟩) =>
      match conjunctionTail first rest with
      | none => none
      | some (marker, ⟨rest', hrest'⟩) => some (marker, ⟨rest', Nat.lt_of_le_of_lt hrest' hrest⟩)
termination_by (cs.length, 1)
decreasing_by
  · exact Prod.Lex.right _ (by omega)
  · exact Prod.Lex.left _ _ hrest

/-- Reads the parts that `and` joins to those before. -/
def conjunctionTail (found : Option Marker) (cs : List Char) : Tail cs :=
  match h : afterWord? ['a', 'n', 'd'] cs with
  | none => some (found, ⟨trimStart cs, length_trimStart_le cs⟩)
  | some rest =>
      match primary rest with
      | none => none
      | some (next, ⟨rest', hrest'⟩) =>
          have hlt := length_of_afterWord? h
          match conjunctionTail (join and found next) rest' with
          | none => none
          | some (marker, ⟨rest'', hrest''⟩) => some (marker, ⟨rest'', by omega⟩)
termination_by (cs.length, 0)
decreasing_by
  · exact Prod.Lex.left _ _ (length_of_afterWord? h)
  · exact Prod.Lex.left _ _ (by omega)

/-- Reads parts joined by `or`. -/
def disjunction (cs : List Char) : Reading cs :=
  match conjunction cs with
  | none => none
  | some (first, ⟨rest, hrest⟩) =>
      match disjunctionTail first rest with
      | none => none
      | some (marker, ⟨rest', hrest'⟩) => some (marker, ⟨rest', Nat.lt_of_le_of_lt hrest' hrest⟩)
termination_by (cs.length, 2)
decreasing_by
  · exact Prod.Lex.right _ (by omega)
  · exact Prod.Lex.left _ _ hrest

/-- Reads the parts that `or` joins to those before. -/
def disjunctionTail (found : Option Marker) (cs : List Char) : Tail cs :=
  match h : afterWord? ['o', 'r'] cs with
  | none => some (found, ⟨trimStart cs, length_trimStart_le cs⟩)
  | some rest =>
      match conjunction rest with
      | none => none
      | some (next, ⟨rest', hrest'⟩) =>
          have hlt := length_of_afterWord? h
          match disjunctionTail (join or found next) rest' with
          | none => none
          | some (marker, ⟨rest'', hrest''⟩) => some (marker, ⟨rest'', by omega⟩)
termination_by (cs.length, 0)
decreasing_by
  · exact Prod.Lex.left _ _ (length_of_afterWord? h)
  · exact Prod.Lex.left _ _ (by omega)

end

/-- Reads a marker. One with nothing left always holds. -/
def parse? (cs : List Char) : Option Marker :=
  match disjunction cs with
  | some (marker, ⟨[], _⟩) => some (marker.getD (leaf true))
  | _ => none

end PinFloor.Marker
