import PinFloor.Toml.Parser

/-!
# TOML documents

The lines of a document define a table together. A table is defined once: by its header, by keys
with points inside another table, or in braces. A table that only stands above others may still get
a header of its own.
-/

namespace PinFloor.Toml

/-- How a table came to be. -/
inductive Origin where
  /-- It stands above a table with a header. -/
  | above
  /-- It has a header. -/
  | header
  /-- Keys with points define it. -/
  | keys
  deriving Repr, DecidableEq

/-- What a name stands for while a document is built. -/
inductive Item where
  /-- A value that is complete. -/
  | value (value : Value)
  /-- A table that may grow. -/
  | table (origin : Origin) (fields : List (String × Item))
  /-- A list of tables, of which the last may grow. -/
  | tables (done : List Value) (last : List (String × Item))

/-- The fields of a table that may grow. -/
abbrev Fields := List (String × Item)

/-- The fields with the item of a name replaced, or added at the end. -/
def put (fields : Fields) (name : String) (item : Item) : Fields :=
  match fields with
  | [] => [(name, item)]
  | (n, old) :: rest => if n = name then (n, item) :: rest else (n, old) :: put rest name item

mutual

/-- The value that an item stands for once the document is complete. -/
def Item.finish : Item → Value
  | .value v => v
  | .table _ fields => .mapping (finishFields fields)
  | .tables done last => .sequence (done ++ [.mapping (finishFields last)])

/-- The values of fields. -/
def finishFields : Fields → List (String × Value)
  | [] => []
  | (name, item) :: rest => (name, item.finish) :: finishFields rest

end

/-- Changes the table at a key, which headers lead to; missing tables are made. -/
def within (change : Fields → Option Fields) (fields : Fields) : Key → Option Fields
  | [] => change fields
  | name :: rest =>
      match fields.lookup name with
      | none => (within change [] rest).map fun inner => put fields name (.table .above inner)
      | some (.table origin inner) =>
          (within change inner rest).map fun inner => put fields name (.table origin inner)
      | some (.tables done last) =>
          (within change last rest).map fun last => put fields name (.tables done last)
      | some (.value _) => none

/-- Gives a table its header. -/
def define (name : String) (fields : Fields) : Option Fields :=
  match fields.lookup name with
  | none => some (put fields name (.table .header []))
  | some (.table .above inner) => some (put fields name (.table .header inner))
  | _ => none

/-- Adds a table to a list of tables. -/
def append (name : String) (fields : Fields) : Option Fields :=
  match fields.lookup name with
  | none => some (put fields name (.tables [] []))
  | some (.tables done last) =>
      some (put fields name (.tables (done ++ [.mapping (finishFields last)]) []))
  | _ => none

/-- Gives a key its value. Tables that have a header are not extended. -/
def assign (value : Value) (fields : Fields) : Key → Option Fields
  | [] => none
  | [last] =>
      match fields.lookup last with
      | none => some (put fields last (.value value))
      | some _ => none
  | name :: rest =>
      match fields.lookup name with
      | none => (assign value [] rest).map fun inner => put fields name (.table .keys inner)
      | some (.table .header _) => none
      | some (.table origin inner) =>
          (assign value inner rest).map fun inner => put fields name (.table origin inner)
      | _ => none

/-- Takes one line into account. `here` is the key of the table that values are given in. -/
def step (state : Key × Fields) : Line → Option (Key × Fields)
  | .table key =>
      match key.getLast? with
      | none => none
      | some last => (within (define last) state.2 key.dropLast).map fun fields => (key, fields)
  | .item key =>
      match key.getLast? with
      | none => none
      | some last => (within (append last) state.2 key.dropLast).map fun fields => (key, fields)
  | .assign key value =>
      (within (fun fields => assign value fields key) state.2 state.1).map fun fields =>
        (state.1, fields)

/-- The value that a text defines, if it is a document. -/
def read? (cs : List Char) : Option Value := do
  let (_, fields) ← (← lines? cs).foldlM step ([], [])
  some (.mapping (finishFields fields))

end PinFloor.Toml
