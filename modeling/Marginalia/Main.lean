import Marginalia.Command.Identifier
import Marginalia.Command.Surroundings
/-!
# The program

`main` takes what the command line can look at as a tree of files, carries the command
line out on that tree, and prints what it leaves.  What cannot be read is not seen, nor is
a file whose name is no text, and symbolic links are not followed.
-/
namespace Marginalia

namespace FileTree

def entry (place : Place) : IO.FS.DirEntry := ⟨"/", RawText.display ([Path.slash].intercalate place)⟩

def addPlace (tree : FileTree) (place : Place) : IO FileTree := do
  let path := (entry place).path
  try
    match (← path.metadata).type with
    | .dir => return { tree with directories := place :: tree.directories }
    | .file => return { tree with files := (place, ← IO.FS.readBinFile path) :: tree.files }
    | _ => return tree
  catch _ => return tree

partial def addWhole (tree : FileTree) (place : Place) : IO FileTree := do
  let mut tree ← tree.addPlace place
  if ← (entry place).path.isDir then
    let found ← try (entry place).path.readDir catch _ => pure #[]
    for item in found do
      let isLink ← try pure ((← item.path.symlinkMetadata).type == .symlink) catch _ => pure true
      if !isLink then tree ← addWhole tree (place ++ [RawText.ofString item.fileName])
  return tree

/-- Adds what the links of a tree lead to, as far as the tree shows the way. -/
def addLinked (base : Place) (tree : FileTree) : IO FileTree :=
  ((Surroundings.linked tree base).filter fun place => (tree.file? place).isNone).eraseDups.foldlM
    addPlace tree

/-- The part of the file system that is asked for.  Links are followed in two steps, as
the second one starts from what the first one finds. -/
def ofSurroundings (base : Place) (surroundings : Surroundings) : IO FileTree := do
  let tree ← surroundings.whole.foldlM addWhole ⟨[], []⟩
  let tree ← surroundings.single.foldlM addPlace tree
  addLinked base (← addLinked base tree)

end FileTree

end Marginalia

open Marginalia in
/-- Carries out the command line and answers with its status. -/
def main (arguments : List String) : IO UInt32 := do
  let arguments := arguments.map RawText.ofString
  let base := (Path.pieces (← IO.currentDir).toString).filter (· != [])
  let tree ← FileTree.ofSurroundings base (.ofArguments base arguments)
  let start := Identifier.numberOfBytes (← IO.getRandomBytes 16).toList
  let outcome := Command.run tree base (fun n => Identifier.ofNumber (start + n)) arguments
  IO.print outcome.output
  IO.eprint outcome.message
  return outcome.status.toUInt32
