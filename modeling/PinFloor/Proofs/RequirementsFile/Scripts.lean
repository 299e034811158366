import PinFloor.Proofs.RequirementsFile.SideBySide
import PinFloor.RequirementsFile.Script

/-! # Scripts of texts side by side

What is read from two texts that are alike is the same, on lines that are further down by the same
number. Where the second text goes on after the first one, its other statements follow.
-/

namespace PinFloor

/-- The statement, some lines further down. -/
def PlacedStatement.down (n : Nat) (s : PlacedStatement) : PlacedStatement :=
  ⟨s.line + n, s.statement⟩

/-- The fault, some lines further down. -/
def Fault.down (n : Nat) : Fault → Fault
  | malformed error position => malformed error (position.down n)
  | unsupportedOption name line => unsupportedOption name (line + n)
  | invalidRequirement line => invalidRequirement (line + n)

/-- The fault with another character quoted for one that stands in place of a separator. -/
def Fault.quoting (quote : Char → Char) : Fault → Fault
  | malformed error position => malformed (error.quoting quote) position
  | fault => fault

namespace Script

/-- What follows a script, unless it stops at a fault. -/
def append (first second : Script) : Script :=
  match first.fault? with
  | none => ⟨first.statements ++ second.statements, second.fault?⟩
  | some _ => first

/-- The script, some lines further down. -/
def down (n : Nat) (script : Script) : Script :=
  ⟨script.statements.map (PlacedStatement.down n), script.fault?.map (Fault.down n)⟩

/-- The script whose fault quotes another character. -/
def quoting (quote : Char → Char) (script : Script) : Script :=
  { script with fault? := script.fault?.map (Fault.quoting quote) }

variable {content cs : List Char} {first second : Script} {s : PlacedStatement}

@[simp] theorem append_empty (script : Script) : script.append ⟨[], none⟩ = script := by
  obtain ⟨statements, fault?⟩ := script
  cases fault? <;> simp [append]

theorem cons_append : (first.cons s).append second = (first.append second).cons s := by
  obtain ⟨statements, fault?⟩ := first
  cases fault? <;> rfl

theorem down_zero (script : Script) : script.down 0 = script := by
  have statement : PlacedStatement.down 0 = id := rfl
  have fault : Fault.down 0 = id := by
    funext fault
    cases fault <;> rfl
  rw [down, statement, fault, List.map_id, Option.map_id]
  rfl

theorem quoting_id (script : Script) : script.quoting id = script := by
  have fault : Fault.quoting id = id := by
    funext fault
    cases fault with
    | malformed error => cases error <;> simp [Fault.quoting, SyntaxError.quoting]
    | unsupportedOption | invalidRequirement => rfl
  rw [quoting, fault, Option.map_id]
  rfl

theorem readFrom_of_none (none : Scanner.statement? (Scanner.skipTrivia cs) = none) :
    readFrom content cs = ⟨[], .none⟩ := by
  rw [readFrom]
  grind

@[simp] theorem readFrom_nil (content : List Char) : readFrom content [] = ⟨[], none⟩ := by
  refine readFrom_of_none ?_
  rw [Scanner.skipTrivia_of_nil rfl]
  rfl

theorem readFrom_of_error {refusal : Scanner.Refusal}
    (refused : Scanner.statement? (Scanner.skipTrivia cs) = some (.error refusal)) :
    readFrom content cs = ⟨[], some (refusal.fault content)⟩ := by
  rw [readFrom]
  grind

theorem readFrom_of_ok {statement : Statement} {rest : List Char}
    (scanned : Scanner.statement? (Scanner.skipTrivia cs) = some (.ok (statement, rest))) :
    readFrom content cs = (readFrom content rest).cons
      ⟨(Position.ofRest content (Scanner.skipTrivia cs)).line, statement⟩ := by
  rw [readFrom]
  grind

/-- Where a text starts with a statement, no blank or comment is skipped. -/
theorem readFrom_of_statement (cs : List Char) {statement : Statement} {rest : List Char}
    (trivia : Scanner.skipTrivia cs = cs)
    (scanned : Scanner.statement? cs = some (.ok (statement, rest))) : readFrom content cs =
      (readFrom content rest).cons ⟨(Position.ofRest content cs).line, statement⟩ := by
  rw [readFrom_of_ok (trivia.symm ▸ scanned), trivia]

theorem readFrom_congr {ds : List Char} (same : Scanner.skipTrivia cs = Scanner.skipTrivia ds) :
    readFrom content cs = readFrom content ds := by
  rw [readFrom, readFrom]
  grind

end Script

namespace Comparison

variable {k : Comparison} {r s : Scanner.Refusal}

theorem Refused.fault (refused : k.Refused r s) :
    s.fault k.second = ((r.fault k.first).quoting k.quote).down k.lines := by
  cases refused with
  | malformed error level | unsupportedOption name level | invalidRequirement level =>
      simp only [Scanner.Refusal.fault, level.ofRest]
      rfl

/-- What the second text says is what the first one says, and then what follows it. -/
theorem After.readFrom {cs ds : List Char} (after : k.After cs ds) :
    Script.readFrom k.second ds =
      (((Script.readFrom k.first cs).quoting k.quote).down k.lines).append
        (Script.readFrom k.second k.more) := by
  rcases after.skipTrivia with both | ⟨nothing, rest⟩
  · have related := both.statement? (Scanner.startsBreak_skipTrivia cs)
    generalize first : Scanner.statement? (Scanner.skipTrivia cs) = a,
      second : Scanner.statement? (Scanner.skipTrivia ds) = b at related
    cases related with
    | none =>
        have alike := both.alike
        rw [Scanner.statement?_eq_none first] at alike
        rw [Script.readFrom_of_none first, Script.readFrom_of_none second, alike.of_nil.2,
          Script.readFrom_nil]
        rfl
    | some agree =>
        cases agree with
        | error refused =>
            rw [Script.readFrom_of_error first, Script.readFrom_of_error second, refused.fault]
            rfl
        | @ok statement cs' ds' left =>
            have shorter : cs'.length < cs.length := Nat.lt_of_lt_of_le
              (Scanner.length_lt_of_statement? first) (Scanner.length_skipTrivia_le cs)
            rw [Script.readFrom_of_ok first, Script.readFrom_of_ok second, both.level.ofRest,
              After.readFrom left]
            exact Script.cons_append.symm
  · have none : Scanner.statement? (Scanner.skipTrivia cs) = none := by rw [nothing]; rfl
    rw [Script.readFrom_of_none none, Script.readFrom_congr rest]
    rfl
termination_by cs.length

end Comparison

end PinFloor
