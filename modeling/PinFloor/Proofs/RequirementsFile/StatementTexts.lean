import PinFloor.Proofs.RequirementsFile.NameSpelling

/-! # The text of a statement on several lines

The text of a statement is made of characters that are part of no line end, and of line ends behind a
`\`. It can be cut into these pieces in one way only, and when the line ends of one kind are removed,
the other pieces stay as they are: so nothing but joined line ends is lost, in whichever order they
are removed.
-/

namespace PinFloor.Scanner

/-- A joined line end: a `\` with a `\r\n`, a `\n` or a `\r`. -/
inductive Joint where
  | crlf
  | lf
  | cr
  deriving DecidableEq

/-- A piece of the text of a statement. -/
inductive Piece where
  /-- A character that is part of no line end. -/
  | char (c : Char) (plain : isBreak c = false)
  | joint (kind : Joint)
  deriving DecidableEq

variable {c : Char} {cs rest : List Char} {pieces others : List Piece} {kind other : Joint}

namespace Joint

/-- How a joined line end is written. -/
def text : Joint → List Char
  | crlf => ['\\', '\r', '\n']
  | lf => ['\\', '\n']
  | cr => ['\\', '\r']

/-- Removes the joined line ends of a kind from a text. -/
def remove : Joint → List Char → List Char
  | crlf => joinCrLf
  | lf => joinLf
  | cr => joinCr

theorem remove_nil (kind : Joint) : kind.remove [] = [] := by
  cases kind <;> rfl

theorem remove_cons (opens : startsBreak cs = false) : kind.remove (c :: cs) = c :: kind.remove cs := by
  cases kind with
  | crlf => exact joinCrLf_cons c opens
  | lf => exact joinLf_cons c opens
  | cr => exact joinCr_cons c opens

theorem remove_text (kind : Joint) (cs : List Char) :
    kind.remove (kind.text ++ cs) = kind.remove cs := by
  cases kind <;> simp [remove, text, joinCrLf, joinLf, joinCr]

/-- A joined line end of another kind stays. Only a `\r` is taken out of a `\r\n`, where there is one. -/
theorem remove_other (differ : other ≠ kind) (apart : kind = .cr → other ≠ .crlf)
    (opens : startsBreak cs = false) :
    kind.remove (other.text ++ cs) = other.text ++ kind.remove cs := by
  have single := head_ne_newline opens
  cases kind with
  | crlf =>
      cases other with
      | crlf => exact absurd rfl differ
      | lf => simp [remove, text, joinCrLf]
      | cr =>
          have kept : joinCrLf ('\\' :: '\r' :: cs) = '\\' :: joinCrLf ('\r' :: cs) := by
            rw [joinCrLf]
            exact fun tail _ same => single (by simp_all)
          rw [text, remove, List.cons_append, List.cons_append, List.nil_append, kept,
            joinCrLf_cons '\r' opens]
          rfl
  | lf =>
      cases other with
      | lf => exact absurd rfl differ
      | crlf | cr => simp [remove, text, joinLf]
  | cr =>
      cases other with
      | crlf => exact absurd rfl (apart rfl)
      | lf => simp [remove, text, joinCr]
      | cr => exact absurd rfl differ

/-- Behind its `\` a joined line end starts with a part of a line end. -/
theorem exists_break (kind : Joint) :
    ∃ tail, kind.text = '\\' :: tail ∧ ∀ rest, startsBreak (tail ++ rest) = true := by
  cases kind with
  | crlf => exact ⟨['\r', '\n'], rfl, fun _ => rfl⟩
  | lf => exact ⟨['\n'], rfl, fun _ => rfl⟩
  | cr => exact ⟨['\r'], rfl, fun _ => rfl⟩

theorem text_append_inj (opens : startsBreak cs = false) (opens' : startsBreak rest = false)
    (same : kind.text ++ cs = other.text ++ rest) : kind = other ∧ cs = rest := by
  have single := head_ne_newline opens
  have single' := head_ne_newline opens'
  cases kind <;> cases other <;> grind [text]

end Joint

namespace Piece

def text : Piece → List Char
  | char c _ => [c]
  | joint kind => kind.text

end Piece

/-- The text that is made of some pieces. -/
def written (pieces : List Piece) : List Char :=
  pieces.flatMap Piece.text

/-- The pieces that are no joined line ends of a kind. -/
def without (kind : Joint) (pieces : List Piece) : List Piece :=
  pieces.filter (· ≠ .joint kind)

/-- The characters of some pieces, without the joined line ends. -/
def chars : List Piece → List Char
  | [] => []
  | .char c _ :: pieces => c :: chars pieces
  | .joint _ :: pieces => chars pieces

theorem not_break_of_mem_chars (inside : c ∈ chars pieces) : isBreak c = false := by
  fun_induction chars pieces with
  | case1 => cases inside
  | case2 d plain pieces ih =>
      rcases List.mem_cons.mp inside with rfl | inside
      · exact plain
      · exact ih inside
  | case3 _ _ ih => exact ih inside

theorem written_char (plain : isBreak c = false) (pieces : List Piece) :
    written (.char c plain :: pieces) = c :: written pieces :=
  List.flatMap_cons

theorem written_joint (kind : Joint) (pieces : List Piece) :
    written (.joint kind :: pieces) = kind.text ++ written pieces :=
  List.flatMap_cons

theorem startsBreak_written (pieces : List Piece) : startsBreak (written pieces) = false := by
  cases pieces with
  | nil => rfl
  | cons piece pieces =>
      cases piece with
      | char c plain =>
          rw [written_char]
          exact plain
      | joint kind =>
          rw [written_joint]
          cases kind <;> rfl

/-- No character is taken for a joined line end: the one behind a `\` is no part of a line end. -/
theorem written_char_ne_joint {plain : isBreak c = false} :
    written (.char c plain :: pieces) ≠ written (.joint kind :: others) := by
  intro same
  obtain ⟨tail, split, ends⟩ := kind.exists_break
  rw [written_char, written_joint, split, List.cons_append] at same
  have opens := startsBreak_written pieces
  rw [(List.cons.inj same).2, ends] at opens
  cases opens

/-- A text is cut into pieces in one way. -/
theorem written_injective : Function.Injective written := by
  intro pieces others same
  induction pieces generalizing others with
  | nil =>
      cases others with
      | nil => rfl
      | cons piece others =>
          cases piece with
          | char => cases same
          | joint kind => cases kind <;> cases same
  | cons piece pieces ih =>
      cases others with
      | nil =>
          cases piece with
          | char => cases same
          | joint kind => cases kind <;> cases same
      | cons piece' others =>
          cases piece with
          | char c plain =>
              cases piece' with
              | char d plain' =>
                  rw [written_char, written_char] at same
                  obtain ⟨rfl, rest⟩ := List.cons.inj same
                  rw [ih rest]
              | joint kind => exact absurd same written_char_ne_joint
          | joint kind =>
              cases piece' with
              | char d plain => exact absurd same.symm written_char_ne_joint
              | joint other =>
                  rw [written_joint, written_joint] at same
                  obtain ⟨rfl, rest⟩ := Joint.text_append_inj (startsBreak_written pieces)
                    (startsBreak_written others) same
                  rw [ih rest]

theorem remove_written (kind : Joint) (apart : kind = .cr → .joint .crlf ∉ pieces) :
    kind.remove (written pieces) = written (without kind pieces) := by
  induction pieces with
  | nil => exact kind.remove_nil
  | cons piece pieces ih =>
      have opens := startsBreak_written pieces
      have rest := ih fun single member => apart single (List.mem_cons_of_mem _ member)
      cases piece with
      | char c plain =>
          have kept : without kind (.char c plain :: pieces) = .char c plain :: without kind pieces := by
            simp [without]
          rw [kept, written_char, written_char, Joint.remove_cons opens, rest]
      | joint other =>
          rw [written_joint]
          by_cases same : other = kind
          · subst same
            rw [Joint.remove_text, rest]
            simp [without]
          · have kept : without kind (.joint other :: pieces) = .joint other :: without kind pieces := by
              simp [without, same]
            rw [kept, written_joint, Joint.remove_other same _ opens, rest]
            exact fun single whole => apart single (whole ▸ List.mem_cons_self)

theorem written_without_all (pieces : List Piece) :
    written (without .cr (without .lf (without .crlf pieces))) = chars pieces := by
  induction pieces with
  | nil => rfl
  | cons piece pieces ih =>
      cases piece with
      | char c plain =>
          have kept (kind : Joint) (others : List Piece) :
              without kind (.char c plain :: others) = .char c plain :: without kind others := by
            simp [without]
          rw [kept, kept, kept, written_char, ih, chars]
      | joint kind =>
          rw [chars, ← ih]
          cases kind <;> simp [without]

theorem without_comm (kind other : Joint) (pieces : List Piece) :
    without kind (without other pieces) = without other (without kind pieces) := by
  simp only [without, List.filter_filter, Bool.and_comm]

theorem Joins.exists_pieces {text line : List Char} (joins : Joins text line) :
    ∃ pieces, text = written pieces ∧ line = chars pieces := by
  induction joins with
  | nil => exact ⟨[], rfl, rfl⟩
  | @char c text line plain _ ih =>
      obtain ⟨pieces, rfl, rfl⟩ := ih
      exact ⟨.char c plain :: pieces, (written_char plain pieces).symm, rfl⟩
  | lineEnd ends _ ih =>
      obtain ⟨pieces, rfl, rfl⟩ := ih
      cases ends with
      | crlf => exact ⟨.joint .crlf :: pieces, (written_joint .crlf pieces).symm, rfl⟩
      | lf => exact ⟨.joint .lf :: pieces, (written_joint .lf pieces).symm, rfl⟩
      | cr => exact ⟨.joint .cr :: pieces, (written_joint .cr pieces).symm, rfl⟩

/-- The text of a statement is cut into pieces in one way, and the three steps of joining its lines remove
    all pieces of one kind each and nothing else, the last two in either order. So what is parsed as
    a requirement, or taken as a target, has no line end, and is the text without the joined ones. -/
theorem only_joined_line_ends_removed (cs : List Char) : ∃ pieces : List Piece,
    (splitStatement cs).1 = written pieces ∧ (∃ tail, cs = written pieces ++ tail) ∧
    (∀ others, (splitStatement cs).1 = written others → others = pieces) ∧
    joinCrLf (written pieces) = written (without .crlf pieces) ∧
    joinLf (written (without .crlf pieces)) = written (without .lf (without .crlf pieces)) ∧
    joinCr (written (without .lf (without .crlf pieces))) = chars pieces ∧
    joinLf (joinCr (joinCrLf (written pieces))) = chars pieces ∧
    (∀ c ∈ chars pieces, isBreak c = false) ∧
    joinLines (splitStatement cs).1 = trim (chars pieces) ∧
    (∀ r hashes rest, statement? cs = some (.ok (.requirement r hashes, rest)) →
      Requirement.parse? (trim (chars pieces)) = some r) ∧
    (∀ target rest, statement? cs = some (.ok (.unnamed target, rest)) →
      target = String.ofList (trim (chars pieces))) := by
  obtain ⟨line, joins⟩ := exists_joins cs
  obtain ⟨pieces, whole, rfl⟩ := joins.exists_pieces
  have apart (others : List Piece) : .joint .crlf ∉ without .crlf others := by
    simp [without]
  have crlf : joinCrLf (written pieces) = written (without .crlf pieces) :=
    remove_written .crlf nofun
  have lf (others : List Piece) : joinLf (written others) = written (without .lf others) :=
    remove_written .lf nofun
  have cr (others : List Piece) (none : .joint .crlf ∉ others) :
      joinCr (written others) = written (without .cr others) :=
    remove_written .cr fun _ => none
  refine ⟨pieces, whole, ?_, fun others same => written_injective (same.symm.trans whole), crlf,
    lf _, ?_, ?_, fun c => not_break_of_mem_chars, joins.joinLines_eq, ?_, ?_⟩
  · obtain ⟨⟨between, split⟩, -⟩ := splitStatement_parts cs
    rw [whole, List.append_assoc] at split
    exact ⟨_, split⟩
  · have none : .joint .crlf ∉ without .lf (without .crlf pieces) := by
      rw [without_comm .lf .crlf]
      exact apart _
    rw [cr _ none, written_without_all]
  · rw [crlf, cr _ (apart pieces), lf, without_comm .lf .cr, written_without_all]
  · intro r hashes rest scanned
    rw [← joins.joinLines_eq]
    exact (parsed_of_statement? scanned).1
  · intro target rest scanned
    have read := unnamed_of_statement? scanned
    rw [unnamed_eq, joins.joinLines_eq] at read
    obtain ⟨_, -, same⟩ := exists_of_map_eq_ok read
    cases same
    rfl

end PinFloor.Scanner
