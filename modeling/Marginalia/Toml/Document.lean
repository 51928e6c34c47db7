import Marginalia.Toml.Scalar
import Marginalia.Toml.Table
/-!
# TOML documents

`Toml.parse?` reads a document of TOML 1.1 as a table, or refuses it.  Arrays and inline
tables may be nested eighty deep, and a dotted key may have eighty parts.

The readers that call one another take a bound on the number of calls; every call but a
bounded number passes a character, so a bound linear in the length of the text is never
reached.
-/
namespace Marginalia

namespace Toml

/-- How deep arrays and inline tables may be nested. -/
def maximumDepth : Nat := 80

/-- How many parts a dotted key may have. -/
def maximumParts : Nat := 80

/-- Skips a comment, if one stands here, up to the end of its line. -/
def skipComment? : Text → Option Text
  | '#' :: t =>
    let rest := t.dropWhile isPlain
    if rest.isEmpty || (afterNewline? rest).isSome then some rest else none
  | t => some t

/-- The rest behind the end of a line, before which a comment may stand; the end of the
text ends a line too. -/
def afterLine? (t : Text) : Option Text := do
  let t ← skipComment? (skipSpaces t)
  if t.isEmpty then some [] else afterNewline? t

def skipBetween? : (bound : Nat) → Text → Option Text
  | 0, _ => none
  | bound + 1, t =>
    let t := skipLines t
    if t.head? == some '#' then (skipComment? t).bind (skipBetween? bound) else some t

def isKeyChar (c : Char) : Bool := c.isAlphanum || c == '_' || c == '-'

def simpleKey? : Text → Option (String × Text)
  | '"' :: t => basicFrom? [] t
  | '\'' :: t => literalFrom? [] t
  | t =>
    let key := t.takeWhile isKeyChar
    if key.isEmpty then none else some (String.ofList key, t.dropWhile isKeyChar)

/-- A dotted key of at most `parts` parts: the keys before the last one, and the last one. -/
def keyWithin? : (parts : Nat) → Text → Option ((List String × String) × Text)
  | 0, _ => none
  | parts + 1, t => do
    let (first, rest) ← simpleKey? (skipSpaces t)
    match skipSpaces rest with
    | '.' :: rest =>
      let ((path, last), rest) ← keyWithin? parts rest
      some ((first :: path, last), rest)
    | rest => some (([], first), rest)

/-- A dotted key: the keys before the last one, and the last one. -/
def key? (t : Text) : Option ((List String × String) × Text) := keyWithin? maximumParts t

mutual

/-- A value, inside arrays and inline tables that may be nested `depth` deeper. -/
def value? : (bound depth : Nat) → Text → Option (Toml × Text)
  | 0, _, _ => none
  | bound + 1, depth, t =>
    match t with
    | '[' :: t => if depth = 0 then none else items? bound (depth - 1) [] t
    | '\x7b' :: t => if depth = 0 then none else fields? bound (depth - 1) [] t
    | '"' :: _ => (quoted? t).map fun (s, rest) => (.string s, rest)
    | '\'' :: _ => (quoted? t).map fun (s, rest) => (.string s, rest)
    | t => bare? t

/-- The rest of an array, behind the items `passed` in reverse. -/
def items? : (bound depth : Nat) → (passed : List Toml) → Text → Option (Toml × Text)
  | 0, _, _, _ => none
  | bound + 1, depth, passed, t => do
    match ← skipBetween? bound t with
    | ']' :: rest => some (.array passed.reverse, rest)
    | t =>
      let (item, rest) ← value? bound depth t
      match ← skipBetween? bound rest with
      | ',' :: rest => items? bound depth (item :: passed) rest
      | ']' :: rest => some (.array (item :: passed).reverse, rest)
      | _ => none

def fields? : (bound depth : Nat) → (entries : Entries) → Text → Option (Toml × Text)
  | 0, _, _, _ => none
  | bound + 1, depth, entries, t => do
    match ← skipBetween? bound t with
    | '\x7d' :: rest => some (.table (finishEntries entries), rest)
    | t =>
      let ((path, last), rest) ← key? t
      let rest ← after? '=' rest
      let (v, rest) ← value? bound depth (skipSpaces rest)
      let entries ← assign? path last v entries
      match ← skipBetween? bound rest with
      | ',' :: rest => fields? bound depth entries rest
      | '\x7d' :: rest => some (.table (finishEntries entries), rest)
      | _ => none

end

/-- The lines of a document, below the header of the table at `path`. -/
def lines? : (bound : Nat) → (path : List String) → (entries : Entries) → Text → Option Entries
  | 0, _, _, _ => none
  | bound + 1, path, entries, t => do
    match skipLines t with
    | [] => some entries
    | '#' :: t => lines? bound path entries (← skipComment? ('#' :: t))
    | '[' :: '[' :: t =>
      let ((parents, last), rest) ← key? t
      let rest ← afterLine? (← after? ']' (← after? ']' rest))
      lines? bound (parents ++ [last]) (← openElement? parents last entries) rest
    | '[' :: t =>
      let ((parents, last), rest) ← key? t
      let rest ← afterLine? (← after? ']' rest)
      lines? bound (parents ++ [last]) (← openTable? parents last entries) rest
    | t =>
      let ((parents, last), rest) ← key? t
      let (v, rest) ← value? bound maximumDepth (skipSpaces (← after? '=' rest))
      let rest ← afterLine? rest
      lines? bound path (← within? path (assign? parents last v) entries) rest

/-- The table that a document writes.  A byte order mark in front is no part of it. -/
def parse? (text : String) : Option (List (String × Toml)) :=
  let t := match text.toList with
    | '\uFEFF' :: t => t
    | t => t
  (lines? (2 * t.length + 2) [] [] t).map finishEntries

end Toml

end Marginalia
