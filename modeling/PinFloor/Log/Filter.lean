import PinFloor.Log.Notice
import PinFloor.Text.Blank

/-!
# Log filters

A log filter says which notices are written to the log. Its directives stand between commas: a
level, a source with a level, or a step of the work in brackets whose notices are wanted. Of the
directives for sources the most specific one decides; a notice is also written if it is told within
a step that a directive names.
-/

namespace PinFloor

/-- A condition on a step of the work. -/
structure LogField where
  /-- The name of a field that the step must have. -/
  name : String
  /-- The value that the field must have, if one is asked for. -/
  value : Option String
  deriving Repr, DecidableEq

/-- A directive of a log filter. -/
structure LogDirective where
  /-- The start of the names of the sources. Without it, all are meant. -/
  source : Option String := none
  /-- The name of a step. -/
  step : Option String := none
  /-- The conditions on the step. -/
  fields : List LogField := []
  /-- The least important level that is let through; without it, nothing is. -/
  level : Option LogLevel := some .trace
  deriving Repr, DecidableEq

/-- The directives of a log filter. -/
structure LogFilter where
  /-- The directives, in their order. -/
  directives : List LogDirective
  deriving Repr, DecidableEq

namespace LogDirective

/-- Whether a directive lets a level through. -/
def admits (d : LogDirective) (level : LogLevel) : Bool :=
  d.level.any fun least => least.rank ≤ level.rank

/-- Whether the source of a directive includes one. -/
def covers (d : LogDirective) (source : String) : Bool :=
  d.source.all fun start => start.toList.isPrefixOf source.toList

/-- Whether a directive is about steps. -/
def isAboutSteps (d : LogDirective) : Bool :=
  d.step.isSome || !d.fields.isEmpty

/-- Whether a directive is about notices themselves, wherever they are told. -/
def isAboutNotices (d : LogDirective) : Bool :=
  d.step.isNone && d.fields.all fun field => field.value.isNone

/-- Whether a directive is about a notice of a source. The only field of a notice is its text. -/
def matchesNotice (d : LogDirective) (source : String) : Bool :=
  d.isAboutNotices && d.covers source && d.fields.all fun field => field.name == "message"

/-- The name of the step of checking an environment, and of its only field. -/
def environmentStep : String := "environment"

/-- Whether a directive is about the step of checking an environment. -/
def matchesStep (d : LogDirective) (source environment : String) : Bool :=
  d.isAboutSteps && d.covers source && d.step.all (· == environmentStep)
    && d.fields.all fun field =>
      field.name == environmentStep && field.value.all (· == environment)

/-- How specific a directive is: by the length of its source, then by its fields. -/
def specificity (d : LogDirective) : List Nat :=
  [d.source.elim 0 (·.utf8ByteSize + 1), d.fields.length]

/-- The more specific of two directives; of equally specific ones the second. -/
def moreSpecific (a b : LogDirective) : LogDirective :=
  if compare a.specificity b.specificity = .gt then a else b

/-- The characters that a source may start with besides letters and digits. -/
def startsSource (c : Char) : Bool :=
  c.isAlphanum || c = '-' || c = ':' || c = '_'

/-- The levels by their names in lower case, `off` standing for none. -/
def levels : List (String × Option LogLevel) :=
  [("off", none), ("error", some .error), ("warn", some .warn), ("info", some .info),
   ("debug", some .debug), ("trace", some .trace)]

/-- Reads a level: its number, or its name in any case. An empty one means errors. -/
def level? (cs : List Char) : Option (Option LogLevel) :=
  match Decimal.signedWord? cs with
  | some n => (levels[n]?).map Prod.snd
  | none =>
      if cs.isEmpty then some (some .error)
      else levels.lookup (String.ofList (cs.map Char.toLower))

/-- Reads what follows the brackets of a directive: nothing, or a level. -/
def finish (d : LogDirective) : List Char → Option LogDirective
  | ['='] => some d
  | '=' :: level => (level? level).map fun level => { d with level }
  | rest => if rest.all isBlank then some d else none

/-- Reads a condition on a step. -/
def field? (cs : List Char) : Option LogField :=
  match cs.splitOn '=' with
  | [] => none
  | [name] => if name.isEmpty then none else some ⟨String.ofList name, none⟩
  | name :: value :: _ => some ⟨String.ofList name, some (String.ofList value)⟩

/-- Reads the brackets of a directive, from behind the opening one. -/
def brackets (d : LogDirective) (cs : List Char) : Option LogDirective :=
  let name := cs.takeWhile fun c => c ≠ ']' && c ≠ '\x7b'
  match cs.dropWhile fun c => c ≠ ']' && c ≠ '\x7b' with
  | ']' :: rest => finish { d with step := some (String.ofList name) } rest
  | _ :: rest =>
      let step := if name.isEmpty then none else some (String.ofList name)
      match rest.dropWhile (· ≠ '\x7d') with
      | '\x7d' :: ']' :: after =>
          (field? (rest.takeWhile (· ≠ '\x7d'))).bind fun field =>
            finish { d with step, fields := [field] } after
      | _ => none
  | [] => none

/-- Reads a directive that is no name alone, from its first character that is not blank. -/
def bracketed? (cs : List Char) : Option LogDirective :=
  let name := cs.takeWhile fun c => c ≠ '=' && c ≠ '['
  let named : LogDirective :=
    if name.isEmpty then {} else { source := some (String.ofList name) }
  match cs.dropWhile fun c => c ≠ '=' && c ≠ '[' with
  | '[' :: rest => brackets named rest
  | rest => finish named rest

/-- Reads a directive. A name alone is a level, or else a source. Blanks at its ends are part of
    the name, so they are of use only after brackets. -/
def parse? (text : List Char) : Option LogDirective :=
  let body := trimStart text
  match body.head? with
  | none => none
  | some first =>
      if !(startsSource first || first = '[') then none
      else if text.contains '=' || text.contains '[' then
        if text.contains '=' && body ≠ text then none else bracketed? body
      else
        match level? text with
        | some level => some { level }
        | none => some { source := some (String.ofList text) }

end LogDirective

namespace LogFilter

/-- Reads the directives of a filter. -/
def parse? (text : String) : Option (List LogDirective) :=
  ((text.toList.splitOn ',').filter (!·.isEmpty)).mapM LogDirective.parse?

/-- Reads a filter. Without directives, the standard one is taken. -/
def read? (standard : LogDirective) (text : Option String) : Option LogFilter :=
  (parse? (text.getD "")).map fun directives =>
    ⟨if directives.isEmpty then [standard] else directives⟩

/-- The most specific directive about notices of a source. -/
def decisive? (filter : LogFilter) (source : String) : Option LogDirective :=
  match filter.directives.filter (·.matchesNotice source) with
  | [] => none
  | first :: others => some (others.foldl LogDirective.moreSpecific first)

/-- Whether a notice is told within a step that a directive names. -/
def showsStep (filter : LogFilter) (notice : Notice) : Bool :=
  notice.environment?.any fun environment =>
    filter.directives.any fun d =>
      d.matchesStep notice.source environment && d.admits notice.level

/-- Whether a notice is written to the log. -/
def shows (filter : LogFilter) (notice : Notice) : Bool :=
  filter.showsStep notice || (filter.decisive? notice.source).any (·.admits notice.level)

end LogFilter

end PinFloor
