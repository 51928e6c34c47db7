/-!
# TOML values

A TOML document is a table; its values are strings, numbers, truth values, dates,
arrays and tables.  Numbers that no reader asks for keep their text only.

A number can have the form of one and still no value: it may be too large, or have no
digits.  Such a number is no fault by itself; whoever reads it, or passes over it, finds
nothing.
-/
namespace Marginalia

inductive Toml
  | string (value : String)
  | integer (value : Int)
  | float (text : String)
  /-- A number without a value. -/
  | valueless (text : String)
  | boolean (value : Bool)
  | datetime (text : String)
  | array (items : List Toml)
  | table (entries : List (String × Toml))
deriving Repr, Inhabited

namespace Toml

/-- The key under which a date shows its text to a reader of tables. -/
def datetimeKey : String := "$__toml_private_datetime"

mutual

/-- Whether a reader can pass over the value: every number in it has a value. -/
def isSound : Toml → Bool
  | valueless _ => false
  | array items => areSound items
  | table entries => haveSoundValues entries
  | _ => true

def areSound : List Toml → Bool
  | [] => true
  | item :: items => item.isSound && areSound items

def haveSoundValues : List (String × Toml) → Bool
  | [] => true
  | (_, value) :: entries => value.isSound && haveSoundValues entries

end

/-- The entries of a value that is read as a table.  A date is a table of one entry. -/
def entries? : Toml → Option (List (String × Toml))
  | table entries => some entries
  | datetime text => some [(datetimeKey, string text)]
  | _ => none

/-- The entries of a value that is read as a record with the given fields.  The reader
passes over the other entries of a table.  An array gives the fields in their order and
may break off; what it holds beyond them is not looked at. -/
def record? (fields : List String) : Toml → Option (List (String × Toml))
  | array items => some (fields.zip items)
  | value => do
    let entries ← value.entries?
    if haveSoundValues (entries.filter fun (key, _) => !fields.contains key) then some entries
    else none

def bool? : Toml → Option Bool
  | boolean value => some value
  | _ => none

def string? : Toml → Option String
  | string value => some value
  | _ => none

def strings? : Toml → Option (List String)
  | array items => items.mapM string?
  | _ => none

end Toml

end Marginalia
