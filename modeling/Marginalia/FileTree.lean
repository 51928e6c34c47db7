import Marginalia.Path
/-!
# Trees of files

A tree of files is given by the files in it, with their contents, and by directories
that may be empty.  Every place in the tree is the list of the names that lead to it
from the top, and whatever leads on to something else is a directory.
-/
namespace Marginalia

/-- A place in a tree of files. -/
abbrev Place := List RawText

structure FileTree where
  files : List (Place × ByteArray)
  directories : List Place

inductive ReadError
  | isDirectory
  | notUtf8
  | missing
deriving DecidableEq, Repr

def ReadError.message : ReadError → String
  | isDirectory => "Is a directory (os error 21)"
  | notUtf8 => "stream did not contain valid UTF-8"
  | missing => "No such file or directory (os error 2)"

namespace FileTree

def file? (tree : FileTree) (place : Place) : Option ByteArray :=
  (tree.files.find? (·.1 == place)).map (·.2)

/-- Whether a place is a directory: the top, a directory that is listed, or one that
something lies below. -/
def isDirectory (tree : FileTree) (place : Place) : Bool :=
  place.isEmpty || tree.directories.any place.isPrefixOf ||
    tree.files.any fun (file, _) => place.isPrefixOf file && place != file

/-- The place that a path leads to, step by step from a place that exists.  Every step,
also one that a dot or an empty piece makes, is taken from a directory. -/
def follow? (tree : FileTree) : (pieces : List RawText) → Place → Option Place
  | [], place => some place
  | piece :: pieces, place =>
    if tree.isDirectory place then
      if piece = [] ∨ piece = [Path.dot] then follow? tree pieces place
      else if piece = [Path.dot, Path.dot] then follow? tree pieces place.dropLast
      else
        let next := place ++ [piece]
        if tree.isDirectory next || (tree.file? next).isSome then follow? tree pieces next else none
    else none

/-- The place that a path leads to, seen from the directory `base`; none if it does not
exist. -/
def locate? (tree : FileTree) (base : Place) (path : RawText) : Option Place :=
  if path = [] then none
  else follow? tree (Path.pieces path) (if path.head? = some Path.slash then [] else base)

/-- The content of the file that a path leads to, seen from the directory `base`. -/
def fileAt? (tree : FileTree) (base : Place) (path : RawText) : Option ByteArray :=
  (tree.locate? base path).bind tree.file?

def read (tree : FileTree) (place : Place) : Except ReadError String :=
  match tree.file? place with
  | some content =>
    match String.fromUTF8? content with
    | some text => .ok text
    | none => .error .notUtf8
  | none => .error (if tree.isDirectory place then .isDirectory else .missing)

end FileTree

end Marginalia
