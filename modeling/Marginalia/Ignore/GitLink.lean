import Marginalia.FileTree
import Marginalia.Ignore.Lines
/-!
# Links to git directories

Where `.git` is a file it stands for a directory elsewhere, which the file names behind
the word `gitdir:`.  The first line of `commondir` in that directory leads on to the one
that holds `info/exclude`: from that directory if it begins with a dot, and from the
working directory otherwise.  Every name is taken from the working directory, wherever
the file lies that holds it.
-/
namespace Marginalia

namespace GitLink

def fileName : RawText := ".git"

def firstLine? (content : ByteArray) : Option Text := (IgnoreFile.lines content).head?.join

def target? (link : ByteArray) : Option RawText := do
  let line ← firstLine? link
  return String.ofList (← "gitdir: ".toList.isPrefixOf? line)

def pointerPath (directory : RawText) : RawText := Path.join directory "commondir"

/-- The path of the excludes to which the pointer in a directory leads. -/
def excludePath? (directory : RawText) (pointer : ByteArray) : Option RawText := do
  let line ← firstLine? pointer
  let common : RawText := String.ofList line
  return Path.join (if line.head? = some '.' then Path.join directory common else common)
    "info/exclude"

/-- The content of the excludes to which a link leads; `base` is the working directory. -/
def excludes? (tree : FileTree) (base : Place) (link : ByteArray) : Option ByteArray := do
  let directory ← target? link
  let pointer ← tree.fileAt? base (pointerPath directory)
  tree.fileAt? base (← excludePath? directory pointer)

end GitLink

end Marginalia
