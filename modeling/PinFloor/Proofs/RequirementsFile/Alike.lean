import PinFloor.Proofs.RequirementsFile.Scanner

/-! # Texts that read alike

Two texts have the same characters, and line ends at the same places that may be written in
different ways. The scanner goes through both side by side: each of its parts reads the same from
both, and leaves tails that are alike again and stand at places of the same line and column.
-/

namespace PinFloor

open Scanner

/-- Two texts that are read side by side. -/
structure Comparison where
  /-- One text. -/
  first : List Char
  /-- The other text. -/
  second : List Char
  /-- What the second text goes on with after the last line of the first one. -/
  more : List Char
  /-- How many lines further down the second text is read. -/
  lines : Nat
  /-- What a character at the start of a line end is in the second text. -/
  quote : Char → Char
  quote_plain : ∀ c, isBreak c = false → quote c = c

/-- The error with another character quoted for one that stands in place of a separator. -/
def SyntaxError.quoting (quote : Char → Char) : SyntaxError → SyntaxError
  | .missingSeparator found => .missingSeparator (found.map quote)
  | error => error

namespace Comparison

variable {k : Comparison} {c : Char} {cs ds cs' ds' : List Char} {p : Char → Bool}

/-- Line ends at the starts of two texts, and what they leave. -/
structure Ends (k : Comparison) (cs ds cs' ds' : List Char) : Prop where
  first : LineEnd cs cs'
  second : LineEnd ds ds'
  quoted : ds.head? = cs.head?.map k.quote

/-- Texts with the same characters and with line ends at the same places. A `\` joins lines in both
    or in neither. -/
inductive Alike (k : Comparison) : List Char → List Char → Prop where
  | nil : k.more = [] → Alike k [] []
  | char {c : Char} {cs ds : List Char} : isBreak c = false →
      (c = '\\' → startsBreak cs = false) → Alike k cs ds → Alike k (c :: cs) (c :: ds)
  | joined {cs ds cs' ds' : List Char} : k.Ends cs ds cs' ds' → Alike k cs' ds' →
      Alike k ('\\' :: cs) ('\\' :: ds)
  | lineEnd {cs ds cs' ds' : List Char} : k.Ends cs ds cs' ds' → Alike k cs' ds' → Alike k cs ds
  | last {cs ds : List Char} : k.Ends cs ds [] k.more → Alike k cs ds

theorem Alike.startsBreak_eq (alike : k.Alike cs ds) : startsBreak cs = startsBreak ds := by
  cases alike with
  | nil | char | joined => rfl
  | lineEnd ends | last ends => rw [ends.first.startsBreak, ends.second.startsBreak]

theorem Alike.head_eq (alike : k.Alike cs ds) : ds.head? = cs.head?.map k.quote := by
  cases alike with
  | nil => rfl
  | char plain => simp [k.quote_plain _ plain]
  | joined => simp [k.quote_plain '\\' rfl]
  | lineEnd ends | last ends => exact ends.quoted

theorem Alike.of_nil (alike : k.Alike [] ds) : ds = [] ∧ k.more = [] := by
  cases alike with
  | nil more => exact ⟨rfl, more⟩
  | lineEnd ends | last ends => cases ends.first

/-- Tails of the two texts at the same line and column. -/
def Level (k : Comparison) (cs ds : List Char) : Prop :=
  ∃ p, Position.Reaches k.first p cs ∧ Position.Reaches k.second (p.down k.lines) ds

theorem Level.cons (level : k.Level (c :: cs) (c :: ds)) (plain : isBreak c = false) :
    k.Level cs ds := by
  obtain ⟨p, first, second⟩ := level
  exact ⟨_, first.cons plain, second.cons plain⟩

theorem Level.lineEnd (level : k.Level cs ds) (ends : k.Ends cs ds cs' ds') :
    k.Level cs' ds' := by
  obtain ⟨p, first, second⟩ := level
  refine ⟨_, first.lineEnd ends.first, ?_⟩
  rw [Position.down, Nat.add_right_comm]
  exact second.lineEnd ends.second

theorem Level.ofRest (level : k.Level cs ds) :
    Position.ofRest k.second ds = (Position.ofRest k.first cs).down k.lines := by
  obtain ⟨p, first, second⟩ := level
  rw [first.ofRest_eq, second.ofRest_eq]

/-- Tails of the two texts that are alike, at the same place. -/
structure Abreast (k : Comparison) (cs ds : List Char) : Prop where
  level : k.Level cs ds
  alike : k.Alike cs ds

/-- Tails of the two texts after a line end: alike, unless the first text ends here. -/
inductive After (k : Comparison) : List Char → List Char → Prop where
  | within {cs ds : List Char} : k.Abreast cs ds → After k cs ds
  | atEnd : After k [] k.more

end Comparison

end PinFloor
