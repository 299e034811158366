import PinFloor.Proofs.RequirementsFile.Loading
import PinFloor.Proofs.RequirementsFile.Scripts

/-! # Files with other line ends

A file says the same with `\r\n` or `\r` in place of each `\n`, on the same lines and columns. Only
a message that quotes the character after an option shows another one.
-/

namespace PinFloor

variable {ending content cs : List Char}

/-- The text with another line end in place of each `\n`. -/
def respell (ending content : List Char) : List Char :=
  content.flatMap fun c => if c = '\n' then ending else [c]

/-- What stands where a line end starts, once each starts with a `\r`. -/
def quoteReturn (c : Char) : Char :=
  if c = '\n' then '\r' else c

theorem respell_newline (ending cs : List Char) :
    respell ending ('\n' :: cs) = ending ++ respell ending cs := by
  simp [respell]

theorem respell_cons {c : Char} (plain : c ≠ '\n') (ending cs : List Char) :
    respell ending (c :: cs) = c :: respell ending cs := by
  simp [respell, plain]

section

variable (spelled : ending = ['\r', '\n'] ∨ ending = ['\r'])

include spelled

theorem head_respell_ne_newline (cs : List Char) : (respell ending cs).head? ≠ some '\n' := by
  cases cs with
  | nil => simp [respell]
  | cons c cs =>
      by_cases newline : c = '\n'
      · subst newline
        rw [respell_newline]
        rcases spelled with rfl | rfl <;> simp
      · simp [respell_cons newline, newline]

theorem lineEnd_respell (cs : List Char) :
    LineEnd (respell ending ('\n' :: cs)) (respell ending cs) := by
  have head := head_respell_ne_newline spelled cs
  rw [respell_newline]
  rcases spelled with rfl | rfl
  · exact .crlf
  · exact .cr head

end

theorem LineEnd.eq_newline {rest : List Char} (ends : LineEnd cs rest) (noReturn : '\r' ∉ cs) :
    cs = '\n' :: rest := by
  cases ends with
  | lf => rfl
  | crlf | cr => simp at noReturn

namespace Comparison

/-- A text and the same text with other line ends. -/
def respelled (ending content : List Char) : Comparison where
  first := content
  second := respell ending content
  more := []
  lines := 0
  quote := quoteReturn
  quote_plain c plain := by simp [quoteReturn, ne_newline_of_not_break plain]

theorem ends_respell (spelled : ending = ['\r', '\n'] ∨ ending = ['\r']) (cs : List Char) :
    (respelled ending content).Ends ('\n' :: cs) (respell ending ('\n' :: cs)) cs
      (respell ending cs) where
  first := .lf
  second := lineEnd_respell spelled cs
  quoted := by
    rw [respell_newline]
    rcases spelled with rfl | rfl <;> rfl

theorem alike_respell (spelled : ending = ['\r', '\n'] ∨ ending = ['\r']) (noReturn : '\r' ∉ cs) :
    (respelled ending content).Alike cs (respell ending cs) := by
  induction cs using text_induction with
  | nil => exact .nil rfl
  | @char c cs plain single ih =>
      rw [respell_cons (ne_newline_of_not_break plain)]
      exact .char plain single (ih (List.not_mem_of_not_mem_cons noReturn))
  | joined ends ih =>
      obtain rfl := ends.eq_newline (List.not_mem_of_not_mem_cons noReturn)
      rw [respell_cons (by decide)]
      exact .joined (ends_respell spelled _) (ih (by simp_all))
  | lineEnd ends ih =>
      obtain rfl := ends.eq_newline noReturn
      exact .lineEnd (ends_respell spelled _) (ih (List.not_mem_of_not_mem_cons noReturn))

end Comparison

theorem Script.read_respell (spelled : ending = ['\r', '\n'] ∨ ending = ['\r'])
    (noReturn : '\r' ∉ content) :
    read (respell ending content) = (read content).quoting quoteReturn := by
  rw [read, read]
  have level : (Comparison.respelled ending content).Level content (respell ending content) :=
    ⟨.start, .refl _, .refl _⟩
  have alike : (Comparison.respelled ending content).Alike content (respell ending content) :=
    Comparison.alike_respell spelled noReturn
  have same := Comparison.After.readFrom (.within ⟨level, alike⟩)
  simpa [Comparison.respelled, Script.down_zero] using same

/-- The error with another character quoted for one that stands in place of a separator. -/
def LoadError.quoting (quote : Char → Char) : LoadError → LoadError
  | malformed file error position => malformed file (error.quoting quote) position
  | error => error

theorem Loading.ofStatements_quoting (fs : FileSystem) (opened : List Identity) (file : Path)
    (quote : Char → Char) (fault? : Option Fault) (statements : List PlacedStatement) :
    ofStatements fs opened file (fault?.map (Fault.quoting quote)) statements =
      (ofStatements fs opened file fault? statements).map
        (·.mapError (LoadError.quoting quote)) :=
  ofStatements_mapFault fs opened file (fun fault => by cases fault <;> rfl) (fun _ _ => rfl)
    (fun _ _ => rfl) fault? statements

/-- A text with `\r\n` or `\r` in place of each `\n` loads exactly if it does with `\n`, and then
    gives the same content, with the same origins. Else the error is the same, in the same file and
    at the same line and column; at most the character that it quotes differs. -/
theorem RequirementsFile.loadText_respell (fs : FileSystem) (path : Path)
    (spelled : ending = ['\r', '\n'] ∨ ending = ['\r']) (noReturn : '\r' ∉ content) :
    loadText fs (respell ending content) path =
      (loadText fs content path).map (·.mapError (LoadError.quoting quoteReturn)) := by
  rw [loadText, loadText, Script.read_respell spelled noReturn]
  exact Loading.ofStatements_quoting ..

/-- The message for an option without its value quotes the start of the line end. -/
theorem RequirementsFile.loadText_respell_bare_option :
    let content := ['-', 'r', '\n']
    '\r' ∉ content ∧
      (loadText ⟨[], []⟩ content ⟨"r.txt"⟩).value
        = .error (.malformed ⟨"r.txt"⟩ (.missingSeparator (some '\n')) ⟨1, 3⟩) ∧
      (loadText ⟨[], []⟩ (respell ['\r', '\n'] content) ⟨"r.txt"⟩).value
        = .error (.malformed ⟨"r.txt"⟩ (.missingSeparator (some '\r')) ⟨1, 3⟩) := by
  intro content
  have noReturn : '\r' ∉ content := by decide
  have trivia : Scanner.skipTrivia content = content :=
    Scanner.skipTrivia_of_other rfl rfl (by decide)
  have refused : Scanner.statement? (Scanner.skipTrivia content)
      = some (.error (.malformed (.missingSeparator (some '\n')) ['\n'])) := by
    rw [trivia]
    rfl
  have read : Script.read content
      = ⟨[], some (.malformed (.missingSeparator (some '\n')) ⟨1, 3⟩)⟩ :=
    Script.readFrom_of_error refused
  have loaded : (loadText ⟨[], []⟩ content ⟨"r.txt"⟩).value
      = .error (.malformed ⟨"r.txt"⟩ (.missingSeparator (some '\n')) ⟨1, 3⟩) := by
    rw [loadText, read, Loading.ofStatements_nil]
    rfl
  refine ⟨noReturn, loaded, ?_⟩
  rw [loadText_respell _ _ (.inl rfl) noReturn, Told.map, loaded]
  rfl

end PinFloor
