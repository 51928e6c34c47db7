import Marginalia.Ignore.Lines
import Marginalia.Ignore.PatternReader
import Marginalia.Text.Blank
import Marginalia.Text.Raw
/-!
# Rules of ignore files

A line of an ignore file is a rule, unless it is empty, a comment or faulty.  The rules
of a file speak about the paths below its directory, and the last one that matches a
path decides about it.  A pattern that is nested too deeply makes its whole file void.
-/
namespace Marginalia

structure IgnoreRule where
  pattern : Pattern
  /-- The rule keeps what it matches. -/
  keeps : Bool
  /-- The rule is about directories alone. -/
  directoriesOnly : Bool

/-- What the rules of a file say about a path. -/
inductive Verdict
  | ignore
  | keep
deriving DecidableEq, Repr

namespace IgnoreRule

/-- Drops the white space at the end of a line, unless it ends in an escaped space. -/
def trimLine (line : Text) : Text :=
  if line.reverse.take 2 = [' ', '\\'] then line else Text.trimEnd line

def beginsAnywhere (t : Text) : Bool := t = ['*', '*'] || t.take 3 = ['*', '*', '/']

/-- The rule of a line, if it is one.  A pattern without a slash, except at its end, may
match at any depth; one that ends in `/**` matches what is in a directory and not the
directory itself. -/
def ofLine? (line : Text) : Option IgnoreRule :=
  let line := trimLine line
  if line.isEmpty || line.head? = some '#' then none
  else
    let (keeps, anchored, t) : Bool × Bool × Text := match line with
      | '\\' :: '!' :: t => (false, false, '!' :: t)
      | '\\' :: '#' :: t => (false, false, '#' :: t)
      | '!' :: '/' :: t => (true, true, t)
      | '!' :: t => (true, false, t)
      | '/' :: t => (false, true, t)
      | t => (false, false, t)
    let (directoriesOnly, t) : Bool × Text := match t.reverse with
      | '/' :: '\\' :: t => (true, t.reverse)
      | '/' :: t => (true, t.reverse)
      | _ => (false, t)
    let t := if anchored || List.elem '/' t || beginsAnywhere t then t else "**/".toList ++ t
    let t := if t.reverse.take 3 = ['*', '*', '/'] then t ++ "/*".toList else t
    (Pattern.ofText? t).map fun pattern => { pattern, keeps, directoriesOnly }

/-- The lines of a file, up to the first one that is no UTF-8.  A byte order mark in front
of the first line is no part of it. -/
def linesOf (content : ByteArray) : List Text :=
  match ((IgnoreFile.lines content).takeWhile (·.isSome)).filterMap id with
  | [] => []
  | first :: rest => first.dropWhile (· == '\uFEFF') :: rest

def ofFile (content : ByteArray) : List IgnoreRule :=
  let rules := (linesOf content).filterMap ofLine?
  if rules.all fun rule => rule.pattern.nesting ≤ Pattern.maximumNesting then rules else []

def verdict? (rules : List IgnoreRule) (path : RawText) (isDirectory : Bool) : Option Verdict :=
  (rules.reverse.find? fun rule =>
    (!rule.directoriesOnly || isDirectory) && rule.pattern.isMatch path).map fun rule =>
      if rule.keeps then .keep else .ignore

end IgnoreRule

end Marginalia
