import PinFloor.Text.Blank

/-!
# Wrapping

A text is laid out in rows of a given width, broken only at spaces. Among all ways to break a line
the cheapest is taken: each row has a price, a row that is too long pays for what sticks out, and
other rows but the last pay for the square of the gap they leave.
-/

namespace PinFloor.Wrap

/-- A word and the number of spaces after it. -/
structure Word where
  /-- The characters of the word. -/
  letters : List Char
  /-- The spaces after it. -/
  spaces : Nat
  deriving Repr, DecidableEq

/-- The room for the first row and for the later rows of a line. -/
structure Room where
  /-- The width of the first row. -/
  first : Nat
  /-- The width of a later row. -/
  later : Nat
  deriving Repr, DecidableEq

/-- A way to lay out words in rows, and what it costs. -/
structure Plan where
  /-- The cost of all rows. -/
  cost : Nat
  rows : List (List Word)
  deriving Repr, DecidableEq

/-- The width of a character. Controls take no room. -/
def charWidth (c : Char) : Nat :=
  if c.toNat < 0x20 ∨ c.toNat = 0x7F then 0 else 1

/-- The width of some characters. -/
def width : List Char → Nat
  | [] => 0
  | c :: cs => charWidth c + width cs

namespace Word

/-- A word with its spaces. -/
def full (w : Word) : List Char :=
  w.letters ++ List.replicate w.spaces ' '

/-- The width of a word with its spaces. -/
def fullWidth (w : Word) : Nat :=
  width w.letters + w.spaces

end Word

/-- The words of a line. Spaces at its start follow an empty word. -/
def words (cs : List Char) : List Word :=
  match cs with
  | [] => []
  | c :: rest =>
      let letters := (c :: rest).takeWhile (· ≠ ' ')
      let tail := (c :: rest).dropWhile (· ≠ ' ')
      ⟨letters, (tail.takeWhile (· = ' ')).length⟩ :: words (tail.dropWhile (· = ' '))
termination_by cs.length
decreasing_by
  have h : ∀ (p : Char → Bool) (l : List Char), (l.dropWhile p).length ≤ l.length :=
    fun p l => (List.dropWhile_sublist p).length_le
  by_cases hc : c = ' '
  · subst hc
    have := h (· = ' ') rest
    simp only [ne_eq, not_true_eq_false, decide_false, Bool.false_eq_true, not_false_eq_true,
      List.dropWhile_cons_of_neg, decide_true, List.dropWhile_cons_of_pos, List.length_cons]
    omega
  · have h₁ := h (· ≠ ' ') rest
    have h₂ := h (· = ' ') (rest.dropWhile (· ≠ ' '))
    simp only [ne_eq, hc, not_false_eq_true, decide_true, List.dropWhile_cons_of_pos,
      List.length_cons] at *
    omega

/-- The characters of a row, without the spaces at its end. -/
def rowText : List Word → List Char
  | [] => []
  | [w] => w.letters
  | w :: ws => w.full ++ rowText ws

/-- The width of a row, without the spaces at its end. -/
def rowWidth : List Word → Nat
  | [] => 0
  | [w] => width w.letters
  | w :: ws => w.fullWidth + rowWidth ws

def rowPrice : Nat := 1000

/-- The price of each column that sticks out. -/
def overflowPrice : Nat := 2500

/-- The price of a last row with one short word. -/
def shortLastPrice : Nat := 25

/-- What a row costs in a room. `last` says that it ends the line. -/
def rowCost (room : Nat) (last : Bool) (row : List Word) : Nat :=
  let target := max 1 room
  let used := rowWidth row
  rowPrice +
    if target < used then (used - target) * overflowPrice
    else if !last then (target - used) * (target - used)
    else if row.length = 1 ∧ 4 * used < target then shortLastPrice
    else 0

namespace Plan

/-- A plan without rows. -/
def empty : Plan := ⟨0, []⟩

/-- A plan with a row added. -/
def add (room : Room) (last : Bool) (plan : Plan) (row : List Word) : Plan :=
  ⟨plan.cost + rowCost (if plan.rows.isEmpty then room.first else room.later) last row,
    plan.rows ++ [row]⟩

/-- The cheapest plan; of equally cheap ones the first. -/
def cheapest (first : Plan) (others : List Plan) : Plan :=
  others.foldl (fun best plan => if plan.cost < best.cost then plan else best) first

/-- The ways to lay out words with a last row after one of the plans. The plans are for the words
    without the first `0`, `1`, … of them left over; `left` are the words left over by the first. -/
def extensions (room : Room) (last : Bool) : List Plan → (left : List Word) → List Plan
  | plan :: plans, w :: ws =>
      plan.add room last (w :: ws) :: extensions room last plans ws
  | _, _ => []

/-- Adds the plans for longer and longer starts of a line to those for the start `done`. -/
def table (room : Room) (plans : List Plan) (done : List Word) : List Word → List Plan
  | [] => plans
  | w :: rest =>
      let start := done ++ [w]
      match extensions room rest.isEmpty plans start with
      | [] => plans
      | first :: others => table room (plans ++ [cheapest first others]) start rest

/-- The cheapest plan for a line. -/
def forLine (room : Room) (line : List Word) : Plan :=
  (table room [empty] [] line).getLast?.getD empty

end Plan

/-- The rows of a line. A line without words has one empty row. -/
def rows (room : Room) (line : List Word) : List (List Word) :=
  if line.isEmpty then [[]] else (Plan.forLine room line).rows

/-- The lines of a text. -/
def lines (cs : List Char) : List (List Char) :=
  cs.splitOn '\n'

/-- The lines of a text, without an empty one at its end. -/
def endedLines (cs : List Char) : List (List Char) :=
  let all := lines cs
  if all.getLast? = some [] then all.dropLast else all

/-- The number of bytes of a text. -/
def bytes (cs : List Char) : Nat :=
  (String.ofList cs).utf8ByteSize

/-- Drops the spaces at the end. -/
def dropSpaces (cs : List Char) : List Char :=
  dropTailWhile (· = ' ') cs

/-- The rows of one line of a text. `first` says that no row stands before them. All other rows are
    indented, except empty ones. -/
def lineRows (columns indent : Nat) (first : Bool) (line : List Char) : List (List Char) :=
  if bytes line < columns ∧ (first ∨ indent = 0) then [dropSpaces line]
  else
    (rows ⟨columns, columns - indent⟩ (words line)).zipIdx.map fun (row, i) =>
      if row.isEmpty ∨ (first ∧ i = 0) then rowText row
      else List.replicate indent ' ' ++ rowText row

/-- The rows of a text that is wrapped. -/
def wrapped (columns indent : Nat) (cs : List Char) : List (List Char) :=
  (lines cs).zipIdx.flatMap fun (line, i) => lineRows columns indent (i = 0) line

/-- The rows of a text that is not wrapped. -/
def unwrapped (indent : Nat) (cs : List Char) : List (List Char) :=
  (endedLines cs).zipIdx.map fun (line, i) =>
    if i = 0 ∨ line.isEmpty then line else List.replicate indent ' ' ++ line

/-- Rows as a text. -/
def joined (rows : List (List Char)) : List Char :=
  ['\n'].intercalate rows

/-- Lays out a text, in rows of a width if one is given. Rows after the first are indented. -/
def layout (columns : Option Nat) (indent : Nat) (cs : List Char) : List Char :=
  match columns with
  | none => joined (unwrapped indent cs)
  | some columns => joined (wrapped columns indent cs)

end PinFloor.Wrap
