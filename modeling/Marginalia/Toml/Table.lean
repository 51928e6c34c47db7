import Marginalia.Toml.Value
/-!
# Building the tables of a TOML document

A document opens tables and assigns values, and each of these steps may be refused: a
key is assigned once, a table is opened by a header once, and the dots of a key lead
neither into a finished value nor into a table that a header has opened.  They may pass
through the last table of an array of tables, but the value has to go into a table
further down.  A table that came into being on the way to another one may still be
opened, unless the dots of a key brought it about or put a value into it.
-/
namespace Marginalia

namespace Toml

/-- How a table came into being. -/
inductive Origin
  /-- By its own header. -/
  | header
  /-- On the way to a table with a header. -/
  | ancestor
  /-- By the dots of a key, or on the way to a table with a header before the dots of a
  key put a value into it. -/
  | dots
deriving DecidableEq, Repr

/-- What a key of an unfinished document holds. -/
inductive Node
  /-- A value that is written out, which nothing can be added to. -/
  | value (v : Toml)
  | table (origin : Origin) (entries : List (String × Node))
  /-- The tables of an array of tables: the last one, which is open, and those before it, in
  reverse. -/
  | tables (last : List (String × Node)) (before : List (List (String × Node)))
deriving Repr, Inhabited

/-- The entries of an unfinished table, in the order in which their keys came up. -/
abbrev Entries := List (String × Node)

def put (key : String) (node : Node) : Entries → Entries
  | [] => [(key, node)]
  | (k, n) :: entries => if k == key then (key, node) :: entries else (k, n) :: put key node entries

/-- Changes the table that a header's path leads to, creating the tables on the way. -/
def within? (path : List String) (change : Entries → Option Entries) (entries : Entries) :
    Option Entries :=
  match path with
  | [] => change entries
  | key :: path =>
    match entries.lookup key with
    | none => (within? path change []).map fun inner => put key (.table .ancestor inner) entries
    | some (.table origin inner) =>
      (within? path change inner).map fun inner => put key (.table origin inner) entries
    | some (.tables last before) =>
      (within? path change last).map fun last => put key (.tables last before) entries
    | some (.value _) => none

def openTable? (path : List String) (key : String) : Entries → Option Entries :=
  within? path fun entries =>
    match entries.lookup key with
    | none => some (put key (.table .header []) entries)
    | some (.table .ancestor inner) => some (put key (.table .header inner) entries)
    | some _ => none

def openElement? (path : List String) (key : String) : Entries → Option Entries :=
  within? path fun entries =>
    match entries.lookup key with
    | none => some (put key (.tables [] []) entries)
    | some (.tables last before) => some (put key (.tables [] (last :: before)) entries)
    | some _ => none

def add? (key : String) (v : Toml) (entries : Entries) : Option Entries :=
  match entries.lookup key with
  | none => some (put key (.value v) entries)
  | some _ => none

def assign? (path : List String) (key : String) (v : Toml) (entries : Entries) : Option Entries :=
  match path with
  | [] => add? key v entries
  | [parent] =>
    match entries.lookup parent with
    | none => (add? key v []).map fun inner => put parent (.table .dots inner) entries
    | some (.table .header _) => none
    | some (.table _ inner) =>
      (add? key v inner).map fun inner => put parent (.table .dots inner) entries
    | some _ => none
  | step :: path =>
    match entries.lookup step with
    | none => (assign? path key v []).map fun inner => put step (.table .dots inner) entries
    | some (.table .header _) => none
    | some (.table origin inner) =>
      (assign? path key v inner).map fun inner => put step (.table origin inner) entries
    | some (.tables last before) =>
      (assign? path key v last).map fun last => put step (.tables last before) entries
    | some (.value _) => none

mutual

def Node.finish : Node → Toml
  | .value v => v
  | .table _ entries => .table (finishEntries entries)
  | .tables last before => .array (finishTables before [.table (finishEntries last)])

def finishEntries : List (String × Node) → List (String × Toml)
  | [] => []
  | (key, node) :: entries => (key, node.finish) :: finishEntries entries

/-- The tables of an array, of which those in front come in reverse. -/
def finishTables : List (List (String × Node)) → List Toml → List Toml
  | [], tables => tables
  | entries :: before, tables => finishTables before (.table (finishEntries entries) :: tables)

end

end Toml

end Marginalia
