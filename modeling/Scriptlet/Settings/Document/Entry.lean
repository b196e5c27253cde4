import Scriptlet.Settings.Document.Statement

/-!
# What a settings document defines

The statements of a document build up a tree of entries: strings, other values, tables and arrays of
tables. A key is defined once. A table that was only passed through on the way to another may still
be opened, and a key that was defined as an array may be defined anew.

Whether a table was passed through, or a key holds an array, is remembered by key; of an array of
tables the last element is meant.

## Contents

- §1 entries
- §2 what was read so far
- §3 values
- §4 documents
-/

namespace Scriptlet

namespace Document

/-! ## §1 Entries -/

/-- What a key is defined as. -/
inductive Entry where
  | string (value : Text)
  /-- A value that is neither a string nor a table. -/
  | other
  | table (fields : List (Text × Entry))
  /-- An array of tables, newest first. -/
  | tables (elements : List (List (Text × Entry)))

/-- The entries of a table. -/
abbrev Fields := List (Text × Entry)

/-- The entries that keys lead into. -/
def Entry.inner? : Entry → Option Fields
  | .table fields => some fields
  | .tables (fields :: _) => some fields
  | _ => none

/-- An entry with others in the table that keys lead into. -/
def Entry.withInner (e : Entry) (fields : Fields) : Entry :=
  match e with
  | .tables (_ :: older) => .tables (fields :: older)
  | _ => .table fields

namespace Fields

/-- The entry of a name. -/
def get? (fs : Fields) (name : Text) : Option Entry := fs.lookup name

/-- The fields with a new entry for a name, in its old place or behind the others. -/
def set (fs : Fields) (name : Text) (e : Entry) : Fields :=
  if fs.any fun (n, _) => n == name then
    fs.map fun (n, old) => if n == name then (n, e) else (n, old)
  else fs ++ [(name, e)]

/-- The entry of a key. -/
def find? (fs : Fields) : Key → Option Entry
  | [] => none
  | [name] => fs.get? name
  | name :: rest =>
    match (fs.get? name).bind Entry.inner? with
    | some inner => find? inner rest
    | none => none

/-- The fields with a new entry for a key. All tables in front of it must be there. -/
def put? (fs : Fields) (key : Key) (e : Entry) : Option Fields :=
  match key with
  | [] => none
  | [name] => some (fs.set name e)
  | name :: rest => do
    let outer ← fs.get? name
    let inner ← put? (← outer.inner?) rest e
    return fs.set name (outer.withInner inner)

/-- The fields with an entry for a key whatever it was before. Tables in front of it are made. -/
def record? (fs : Fields) (key : Key) (e : Entry) : Option Fields :=
  match key with
  | [] => none
  | [name] => some (fs.set name e)
  | name :: rest =>
    match fs.get? name with
    | none => (record? [] rest e).map fun inner => fs.set name (.table inner)
    | some (.table inner) => (record? inner rest e).map fun inner => fs.set name (.table inner)
    | some _ => none

end Fields

/-! ## §2 What was read so far -/

/-- What has been read so far. -/
structure Draft where
  root : Fields
  /-- Tables that were passed through and not opened. -/
  passed : List Key
  /-- Keys that hold arrays. -/
  arrays : List Key

namespace Draft

/-- Nothing read. -/
def empty : Draft := ⟨[], [], []⟩

/-- Marks a table as passed through. -/
def pass (d : Draft) (k : Key) : Draft := { d with passed := k :: d.passed }

/-- Marks a table as opened. -/
def unpass (d : Draft) (k : Key) : Draft := { d with passed := d.passed.filter (· != k) }

/-- The key under which is remembered what a name in a table holds. The empty name counts as the
table itself, except at the top. -/
def kindKey (context : Key) (name : Text) : Key :=
  if !name.isEmpty then context ++ [name] else if context.isEmpty then [name] else context

/-- Remembers whether a key holds an array. -/
def mark (d : Draft) (k : Key) (array : Bool) : Draft :=
  let others := d.arrays.filter (· != k)
  { d with arrays := if array then k :: others else others }

/-- Replaces the entry of a key. -/
def put? (d : Draft) (k : Key) (e : Entry) : Option Draft :=
  (d.root.put? k e).map fun root => { d with root := root }

/-- Defines a key whose tables are there. An array can be replaced; a table that was passed through
stays what it is and is then open. -/
def define? (d : Draft) (k : Key) (e : Entry) : Option Draft :=
  match d.root.find? k with
  | none => d.put? k e
  | some _ =>
    if d.arrays.contains k then (d.unpass k).put? k e
    else if d.passed.contains k then some (d.unpass k)
    else none

/-- Makes sure that every part leads through a table: those `around`, then each of the others. -/
def passThrough? (d : Draft) (around : Key) : Key → Option Draft
  | [] => some d
  | part :: rest =>
    let k := around ++ [part]
    match d.root.find? k with
    | none => ((d.pass k).put? k (.table [])).bind fun d => passThrough? d k rest
    | some e => if e.inner?.isSome then passThrough? d k rest else none

/-- Enters a table. -/
def enterTable? (d : Draft) (k : Key) : Option Draft := do
  let d ← d.passThrough? [] k.dropLast
  d.define? k (.table [])

/-- Enters a new element of an array of tables. -/
def enterElement? (d : Draft) (k : Key) : Option Draft := do
  let d ← d.passThrough? [] k.dropLast
  match d.root.find? k with
  | none => d.put? k (.tables [[]])
  | some (.tables elements) => d.put? k (.tables ([] :: elements))
  | some _ => none

/-- Enters the tables on the way of a dotted key, each behind the one before. -/
def enterParts? (d : Draft) (around : Key) : Key → Option Draft
  | [] => some d
  | part :: rest => do
    let k := around ++ [part]
    let d ← (d.pass k).enterTable? k
    enterParts? d k rest

end Draft

/-! ## §3 Values -/

mutual

/-- What a value is on its own. -/
def Literal.entry? : Literal → Option Entry
  | .string t => some (.string t)
  | .other => some .other
  | .array items => if Literal.areEntries items then some .other else none
  | .braces fields => (Literal.fieldEntries? fields []).map .table

/-- All items of an array are something on their own. -/
def Literal.areEntries : List Literal → Bool
  | [] => true
  | item :: items => item.entry?.isSome && Literal.areEntries items

/-- The entries of a table in braces, added to those of fields before. -/
def Literal.fieldEntries? : List (Key × Literal) → Fields → Option Fields
  | [], entries => some entries
  | (key, value) :: fields, entries => do
    let entries ← entries.record? key (← value.entry?)
    Literal.fieldEntries? fields entries

end

/-- The value is an array. -/
def Literal.isArray : Literal → Bool
  | .array _ => true
  | _ => false

mutual

/-- What reading a value does before its key is defined: arrays are remembered, and the
fields of tables in braces are assigned one by one. `inArray` says whether the value is an
item of an array. -/
def Literal.prepare? (context : Key) (name : Text) (inArray : Bool) :
    Literal → Draft → Option Draft
  | .string _, d | .other, d => some d
  | .array items, d =>
    Literal.prepareItems? context name items (d.mark (Draft.kindKey context name) true)
  | .braces fields, d => do
    let k := context ++ [name]
    let d ← if inArray then (d.pass k).enterElement? k else (d.pass k).enterTable? k
    Literal.assignFields? k fields d

/-- Prepares the items of an array in order. -/
def Literal.prepareItems? (context : Key) (name : Text) : List Literal → Draft → Option Draft
  | [], d => some d
  | item :: items, d => do
    let d ← Literal.prepare? context name true item d
    Literal.prepareItems? context name items d

/-- Assigns the fields of a table in braces in order. -/
def Literal.assignFields? (context : Key) : List (Key × Literal) → Draft → Option Draft
  | [], d => some d
  | (key, value) :: fields, d => do
    let d ← d.enterParts? context key.dropLast
    let around := context ++ key.dropLast
    let name := key.getLastD []
    let d ← Literal.prepare? around name false value d
    let d ← d.define? (around ++ [name]) (← value.entry?)
    Literal.assignFields? context fields (d.mark (Draft.kindKey around name) value.isArray)

end

/-! ## §4 Documents -/

/-- What has been read so far, and the table that was opened last. -/
structure Reading where
  draft : Draft
  context : Key

/-- Reads a statement. -/
def Reading.take? (r : Reading) : Statement → Option Reading
  | .table key => (r.draft.enterTable? key).map fun d => ⟨d.mark key false, key⟩
  | .element key => (r.draft.enterElement? key).map fun d => ⟨d.mark key false, key⟩
  | .assignment key value =>
    (Literal.assignFields? r.context [(key, value)] r.draft).map fun d => { r with draft := d }

/-- The entries that a document defines. -/
def read? (t : Text) : Option Fields := do
  let r ← (← statements? t).foldlM Reading.take? ⟨.empty, []⟩
  return r.draft.root

end Document

end Scriptlet
