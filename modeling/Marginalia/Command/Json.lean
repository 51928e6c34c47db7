import Marginalia.Text.Raw
/-!
# Printing JSON

A JSON value is printed over several lines, two spaces deeper for every level.  Texts
keep all characters but quotes, backslashes and the controls below the space.  A path is
printed as a text; one that is none has no value in JSON.
-/
namespace Marginalia

inductive Json
  | number (n : Nat)
  | string (s : String)
  | array (items : List Json)
  | object (fields : List (String × Json))
deriving Repr, Inhabited

/-- Why there is no value. -/
inductive JsonError
  | pathNotUtf8
deriving DecidableEq, Repr

def JsonError.message : JsonError → String
  | pathNotUtf8 => "path contains invalid UTF-8 characters"

namespace Json

/-- The value of a path. -/
def ofPath (path : RawText) : Except JsonError Json :=
  match path.toString? with
  | some text => .ok (.string text)
  | none => .error .pathNotUtf8

def hexPair (n : Nat) : List Char := [Nat.digitChar (n / 16 % 16), Nat.digitChar (n % 16)]

def escape (c : Char) : List Char :=
  if c = '"' then ['\\', '"']
  else if c = '\\' then ['\\', '\\']
  else if c = '\x08' then ['\\', 'b']
  else if c = '\x0c' then ['\\', 'f']
  else if c = '\n' then ['\\', 'n']
  else if c = '\r' then ['\\', 'r']
  else if c = '\t' then ['\\', 't']
  else if c.toNat < 0x20 then '\\' :: 'u' :: '0' :: '0' :: hexPair c.toNat
  else [c]

def quote (s : String) : String := "\"" ++ String.ofList (s.toList.flatMap escape) ++ "\""

def lineBreak (level : Nat) : String := "\n" ++ String.ofList (List.replicate (2 * level) ' ')

/-- Members of an array or object whose brackets stand on the given level. -/
def enclose (level : Nat) (left right : String) (members : List String) : String :=
  if members.isEmpty then left ++ right
  else
    left ++ lineBreak (level + 1) ++ ("," ++ lineBreak (level + 1)).intercalate members ++
      lineBreak level ++ right

mutual

def render (level : Nat) : Json → String
  | .number n => toString n
  | .string s => quote s
  | .array items => enclose level "[" "]" (renderItems (level + 1) items)
  | .object fields => enclose level "\x7b" "\x7d" (renderFields (level + 1) fields)

def renderItems (level : Nat) : List Json → List String
  | [] => []
  | item :: items => render level item :: renderItems level items

def renderFields (level : Nat) : List (String × Json) → List String
  | [] => []
  | (key, value) :: fields => (quote key ++ ": " ++ render level value) :: renderFields level fields

end

end Json

end Marginalia
