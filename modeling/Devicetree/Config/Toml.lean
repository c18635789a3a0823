import Devicetree.Config.Number

/-!
# TOML documents

The values of a document, and how its lines build them up. A table is given once: by a
header, by dotted keys, or inline. A table that was only passed through on the way to another
may still be given a header.
-/

namespace Devicetree.Toml

/-- How a table came to be. -/
inductive Origin
  /-- By a header of its own, or as the document itself. -/
  | header
  /-- On the way to a table with a header. -/
  | implied
  /-- On the way to a key with dots. -/
  | dotted
  /-- Between braces. -/
  | inline
deriving DecidableEq, Repr

inductive Value
  | string (text : String)
  | boolean (value : Bool)
  | number (value : Number)
  /-- A date or a time. -/
  | moment
  | array (items : List Value)
  /-- The tables with one header between double brackets. -/
  | tables (items : List Value)
  | table (origin : Origin) (fields : List (String × Value))

abbrev Fields := List (String × Value)

mutual

/-- Whether all numbers in a value can be read. -/
def Value.isReadable : Value → Bool
  | .number n => n.fits
  | .array items => allReadable items
  | .tables items => allReadable items
  | .table _ fields => fieldsReadable fields
  | _ => true

def allReadable : List Value → Bool
  | [] => true
  | v :: vs => v.isReadable && allReadable vs

def fieldsReadable : List (String × Value) → Bool
  | [] => true
  | (_, v) :: rest => v.isReadable && fieldsReadable rest

end

/-- Changes the value under a key, or adds one. -/
def alter (key : String) (f : Option Value → Option Value) : Fields → Option Fields
  | [] => (f none).map fun v => [(key, v)]
  | (k, v) :: rest =>
    if k = key then (f (some v)).map fun v => (k, v) :: rest
    else (alter key f rest).map ((k, v) :: ·)

/-- Adds a value under a key that is not there yet. -/
def add (key : String) (v : Value) : Fields → Option Fields :=
  alter key fun
    | none => some v
    | some _ => none

/-- Changes the table that a header leads to. -/
def underHeader (f : Fields → Option Fields) : List String → Fields → Option Fields
  | [], fields => f fields
  | key :: path, fields =>
    alter key (fun
      | none => (underHeader f path []).map (.table .implied)
      | some (.table .inline _) => none
      | some (.table origin fields) => (underHeader f path fields).map (.table origin)
      | some (.tables items) =>
        match items.getLast? with
        | some (.table origin fields) =>
          (underHeader f path fields).map fun fields =>
            .tables (items.dropLast ++ [.table origin fields])
        | _ => none
      | some _ => none) fields

/-- Changes the table that the first parts of a dotted key lead to. -/
def underKey (f : Fields → Option Fields) : List String → Fields → Option Fields
  | [], fields => f fields
  | key :: path, fields =>
    alter key (fun
      | none => (underKey f path []).map (.table .dotted)
      | some (.table .dotted fields) => (underKey f path fields).map (.table .dotted)
      | some (.table .implied fields) =>
        if path.isEmpty then none else (underKey f path fields).map (.table .implied)
      | some _ => none) fields

/-- Adds a value under a dotted key. -/
def assign (key : List String) (v : Value) (fields : Fields) : Option Fields :=
  match key.getLast? with
  | some last => underKey (add last v) key.dropLast fields
  | none => none

/-- A document while it is read: the tables so far, and the header that applies. -/
structure Document where
  root : Fields
  header : List String

namespace Document

def empty : Document := ⟨[], []⟩

/-- Adds a value under the header that applies. -/
def put (d : Document) (key : List String) (v : Value) : Option Document :=
  (underHeader (assign key v) d.header d.root).map fun root => { d with root := root }

/-- Begins the table with a header. -/
def openTable (d : Document) (path : List String) : Option Document :=
  match path.getLast? with
  | none => none
  | some last =>
    let given := alter last fun
      | none => some (.table .header [])
      | some (.table .implied fields) => some (.table .header fields)
      | some _ => none
    (underHeader given path.dropLast d.root).map fun root => ⟨root, path⟩

/-- Begins one more table with a header between double brackets. -/
def openElement (d : Document) (path : List String) : Option Document :=
  match path.getLast? with
  | none => none
  | some last =>
    let given := alter last fun
      | none => some (.tables [.table .header []])
      | some (.tables items) => some (.tables (items ++ [.table .header []]))
      | some _ => none
    (underHeader given path.dropLast d.root).map fun root => ⟨root, path⟩

end Document

end Devicetree.Toml
