import PinFloor.Marker.Basic
import PinFloor.Specifier.Basic

/-!
# The canonical text of a marker

The text is a disjunction of clauses, one for each path of the diagram to a true leaf, from which
redundant terms and clauses are removed. Branches of a node that lead to one diagram are written at
the place of the first of them.
-/

namespace PinFloor

/-- The values between two cuts of a line; an end without a cut is unbounded. -/
abbrev Interval (α : Type) := Option (Cut α) × Option (Cut α)

/-- A comparison in the canonical text of a marker. -/
inductive Term where
  /-- A comparison of release numbers. -/
  | version (key : VersionVariable) (operator : Operator) (release : List Nat)
  /-- A comparison of texts. -/
  | text (key : TextVariable) (operator : Operator) (value : String)
  /-- The variable is, or is not, a part of the text. -/
  | within (key : TextVariable) (negated : Bool) (whole : String)
  /-- The text is, or is not, a part of the variable. -/
  | holding (key : TextVariable) (negated : Bool) (part : String)
  /-- The extra is, or is not, asked for. -/
  | extra (negated : Bool) (name : PackageName)
  deriving Repr, DecidableEq

namespace Term

/-- Whether two terms say the same. Releases may differ in zeros at the end. -/
def same : Term → Term → Bool
  | version a op x, version b op' y => a == b && op == op' && trimZeros x == trimZeros y
  | a, b => a == b

/-- Whether one term is the negation of the other. -/
def negates : Term → Term → Bool
  | version a op x, version b op' y =>
      a == b && trimZeros x == trimZeros y && op.complement? == some op'
  | text a op x, text b op' y => a == b && x == y && op.complement? == some op'
  | within a n x, within b n' y => a == b && x == y && n != n'
  | holding a n x, holding b n' y => a == b && x == y && n != n'
  | extra n x, extra n' y => x == y && n != n'
  | _, _ => false

/-- A text between single quotes. -/
def quoted (s : String) : String :=
  "'" ++ s ++ "'"

/-- How a term is written. -/
def write : Term → String
  | version key operator release =>
      key.name ++ " " ++ operator.sign ++ " "
        ++ quoted (Version.releaseText release ++ if operator.isWildcard then ".*" else "")
  | text key operator value => key.name ++ " " ++ operator.sign ++ " " ++ quoted value
  | within key negated whole =>
      key.name ++ (if negated then " not in " else " in ") ++ quoted whole
  | holding key negated part =>
      quoted part ++ (if negated then " not in " else " in ") ++ key.name
  | extra negated name => "extra " ++ (if negated then "!=" else "==") ++ " " ++ quoted name.text

end Term

/-- Terms that hold together. -/
abbrev Clause := List Term

namespace Clause

/-- Whether a clause has a term that says the same. -/
def has (clause : Clause) (term : Term) : Bool :=
  clause.any (·.same term)

/-- Whether `term` can be left out of `clause` because some other clause holds where the rest of
    `clause` holds and `term` does not. -/
def isRedundant (others : List Clause) (clause : Clause) (term : Term) : Bool :=
  others.any fun other =>
    other.all fun t => !t.same term && (t.negates term || clause.has t)

/-- Leaves the redundant terms out, one after the other. `kept` holds those that stay. -/
def prune (others : List Clause) (kept : Clause) : Clause → Clause
  | [] => kept
  | term :: rest =>
      if isRedundant others (kept ++ term :: rest) term then prune others kept rest
      else prune others (kept ++ [term]) rest

/-- Leaves the redundant terms out of each clause, one after the other. -/
def pruneAll (done : List Clause) : List Clause → List Clause
  | [] => done
  | clause :: rest => pruneAll (done ++ [prune (done ++ rest) [] clause]) rest

/-- Leaves out each clause that holds all terms of another one that stays. -/
def dropCovered (kept : List Clause) : List Clause → List Clause
  | [] => kept
  | clause :: rest =>
      if (kept ++ rest).any fun other => other.all clause.has then dropCovered kept rest
      else dropCovered (kept ++ [clause]) rest

/-- Removes redundant terms, then redundant clauses. -/
def simplify (clauses : List Clause) : List Clause :=
  dropCovered [] (pruneAll [] clauses)

/-- How a clause is written. -/
def write (clause : Clause) : String :=
  String.intercalate " and " (clause.map Term.write)

/-- How a disjunction of clauses is written. -/
def writeAll : List Clause → String
  | [clause] => clause.write
  | clauses =>
      String.intercalate " or " <| clauses.map fun clause =>
        if clause.length = 1 then clause.write else "(" ++ clause.write ++ ")"

end Clause

/-- How the values of a line are compared and written. -/
structure Line (α : Type) where
  /-- A comparison with a value of the line. -/
  term : Operator → α → Term
  /-- Whether two values are the same place of the line. -/
  same : α → α → Bool
  /-- The value whose `.*` stands for everything from the first value up to the second. -/
  family? : α → α → Option α

namespace Line

variable {α : Type}

/-- The points that some intervals leave out of the rest of the line, if they leave out nothing
    else. -/
def gaps? (line : Line α) : List (Interval α) → Option (List α)
  | [(_, none)] => some []
  | (_, some (.before v)) :: (some (.after w), upper) :: rest =>
      if line.same v w then (gaps? line ((some (.after w), upper) :: rest)).map (v :: ·) else none
  | _ => none

/-- The points that some intervals leave out of the whole line, if they leave out nothing else. -/
def missing? (line : Line α) (intervals : List (Interval α)) : Option (List α) :=
  match intervals with
  | (none, _) :: _ => line.gaps? intervals
  | _ => none

/-- The term for a lower end. -/
def lowerTerm (line : Line α) : Cut α → Term
  | .before v => line.term .atLeast v
  | .after v => line.term .greater v

/-- The term for an upper end. -/
def upperTerm (line : Line α) : Cut α → Term
  | .before v => line.term .less v
  | .after v => line.term .atMost v

/-- The terms for both ends of an interval. -/
def endTerms (line : Line α) (interval : Interval α) : Clause :=
  (interval.1.map line.lowerTerm).toList ++ (interval.2.map line.upperTerm).toList

/-- The terms that say that a value is in an interval. -/
def clause (line : Line α) : Interval α → Clause
  | (some (.before v), some (.after w)) =>
      if line.same v w then [line.term .equal v]
      else line.endTerms (some (.before v), some (.after w))
  | (some (.before v), some (.before w)) =>
      match line.family? v w with
      | some u => [line.term .matching u]
      | none => line.endTerms (some (.before v), some (.before w))
  | interval => line.endTerms interval

/-- The value whose `.*` stands for all that two intervals leave out. -/
def missingFamily? (line : Line α) : List (Interval α) → Option α
  | [(none, some (.before v)), (some (.before w), none)] => line.family? v w
  | _ => none

/-- The ways to say that a value is in one of some intervals. -/
def ways (line : Line α) (intervals : List (Interval α)) : List Clause :=
  match line.missing? intervals with
  | some points => [points.map (line.term .notEqual)]
  | none =>
      match line.missingFamily? intervals with
      | some u => [[line.term .notMatching u]]
      | none => intervals.map line.clause

/-- The line of a version variable. A family is given by two release numbers. -/
def ofVersion (key : VersionVariable) : Line (List Nat) where
  term := .version key
  same v w := trimZeros v == trimZeros w
  family?
    | [major], [major', 1] => if major = major' then some [major, 0] else none
    | [major, minor], [major', minor'] =>
        if major = major' ∧ minor' = minor + 1 then some [major, minor] else none
    | _, _ => none

/-- The line of a text variable. It has no families. -/
def ofText (key : TextVariable) : Line String where
  term := .text key
  same v w := v == w
  family? _ _ := none

end Line

namespace Marker

variable {α : Type}

/-- The diagrams below a cut, between cuts and above the last cut, for the cuts of one line. -/
def pieces (cut? : Question → Option (Cut α)) (lower : Option (Cut α)) :
    Marker → List (Interval α × Marker)
  | leaf value => [((lower, none), leaf value)]
  | node question yes no =>
      match cut? question with
      | some cut => ((lower, some cut), yes) :: pieces cut? (some cut) no
      | none => [((lower, none), node question yes no)]

/-- Brings together the intervals that lead to one diagram, at the place of the first of them. -/
def gather : List (Interval α × Marker) → List (List (Interval α) × Marker)
  | [] => []
  | (interval, m) :: rest =>
      let found := gather rest
      (interval :: ((found.find? (·.2 == m)).map Prod.fst).getD [], m) :: found.filter (·.2 != m)

/-- The cut of a question about a version variable. -/
def versionCut? (key : VersionVariable) : Question → Option (Cut (List Nat))
  | .version key' cut => if key = key' then some cut else none
  | _ => none

/-- The cut of a question about a text variable. -/
def textCut? (key : TextVariable) : Question → Option (Cut String)
  | .text key' cut => if key = key' then some cut else none
  | _ => none

/-- The branches of a node: for each the ways to say that it is taken, and the diagram there. -/
def branches (question : Question) (yes no : Marker) : List (List Clause × Marker) :=
  match question with
  | .version key _ =>
      (gather (pieces (versionCut? key) none (node question yes no))).map fun (intervals, m) =>
        ((Line.ofVersion key).ways intervals, m)
  | .text key _ =>
      (gather (pieces (textCut? key) none (node question yes no))).map fun (intervals, m) =>
        ((Line.ofText key).ways intervals, m)
  | .within key whole => [([[.within key false whole]], yes), ([[.within key true whole]], no)]
  | .holding key part => [([[.holding key false part]], yes), ([[.holding key true part]], no)]
  | .extra name => [([[.extra false name]], yes), ([[.extra true name]], no)]

/-- No piece of a diagram is larger than the diagram. -/
theorem size_le_of_mem_pieces {cut? : Question → Option (Cut α)} {m : Marker}
    {lower : Option (Cut α)} {p : Interval α × Marker} (hp : p ∈ pieces cut? lower m) :
    p.2.size ≤ m.size := by
  induction m generalizing lower with
  | leaf value => simp_all [pieces]
  | node question yes no yesIh noIh =>
    unfold pieces at hp
    split at hp
    · rcases List.mem_cons.1 hp with rfl | hp
      · simp only [size]; omega
      · have := noIh hp
        simp only [size]; omega
    · simp_all

/-- The pieces that a node is cut into are smaller than the node. -/
theorem size_lt_of_mem_pieces {cut? : Question → Option (Cut α)} {question : Question}
    {yes no : Marker} {cut : Cut α} (hcut : cut? question = some cut)
    {p : Interval α × Marker} (hp : p ∈ pieces cut? none (node question yes no)) :
    p.2.size < (node question yes no).size := by
  unfold pieces at hp
  rw [hcut] at hp
  rcases List.mem_cons.1 hp with rfl | hp
  · simp only [size]; omega
  · have := size_le_of_mem_pieces hp
    simp only [size]; omega

/-- Gathering makes up no diagram. -/
theorem exists_mem_of_mem_gather {ps : List (Interval α × Marker)}
    {g : List (Interval α) × Marker} (hg : g ∈ gather ps) : ∃ p ∈ ps, p.2 = g.2 := by
  induction ps generalizing g with
  | nil => simp [gather] at hg
  | cons p rest ih =>
    rcases List.mem_cons.1 hg with rfl | hg
    · exact ⟨p, List.mem_cons_self, rfl⟩
    · obtain ⟨q, hq, heq⟩ := ih (List.mem_filter.1 hg).1
      exact ⟨q, List.mem_cons_of_mem _ hq, heq⟩

/-- The branches of a node are smaller than the node. -/
theorem size_lt_of_mem_branches {question : Question} {yes no : Marker}
    {b : List Clause × Marker} (hb : b ∈ branches question yes no) :
    b.2.size < (node question yes no).size := by
  cases question with
  | version key cut =>
    obtain ⟨g, hg, rfl⟩ := List.mem_map.1 hb
    obtain ⟨p, hp, heq⟩ := exists_mem_of_mem_gather hg
    have hcut : versionCut? key (.version key cut) = some cut := by simp [versionCut?]
    simpa only [heq] using size_lt_of_mem_pieces hcut hp
  | text key cut =>
    obtain ⟨g, hg, rfl⟩ := List.mem_map.1 hb
    obtain ⟨p, hp, heq⟩ := exists_mem_of_mem_gather hg
    have hcut : textCut? key (.text key cut) = some cut := by simp [textCut?]
    simpa only [heq] using size_lt_of_mem_pieces hcut hp
  | within key whole | holding key part | extra name =>
    simp only [branches, List.mem_cons, List.not_mem_nil, or_false] at hb
    rcases hb with rfl | rfl <;> simp only [size] <;> omega

/-- One clause for each way to reach a true leaf, in depth-first order. -/
def clauses (m : Marker) : List Clause :=
  match m with
  | leaf true => [[]]
  | leaf false => []
  | node question yes no =>
      (branches question yes no).attach.flatMap fun ⟨(ways, rest), _⟩ =>
        ways.flatMap fun way => (clauses rest).map (way ++ ·)
termination_by m.size
decreasing_by
  exact size_lt_of_mem_branches ‹_›

/-- The canonical text of a marker; one that always holds has none. -/
def text? : Marker → Option String
  | leaf true => none
  | leaf false => some "python_version < '0'"
  | m => some (Clause.writeAll (Clause.simplify m.clauses))

end Marker

end PinFloor
