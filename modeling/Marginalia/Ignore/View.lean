import Marginalia.FileTree
/-!
# How the directories of a walk see its paths

The rules of a directory are about paths as seen from there, and that is a matter of
spelling.  A walk spells the paths it finds with the path that it began with in front.  A
directory on the way takes its own spelling off the front of such a path, and one above
the walk takes off its absolute path.  In all spellings one dot with its slash in front
does not count; where more of them stand, or slashes stand together, a directory may not
find its spelling in the path, and then it sees more than what lies below it.
-/
namespace Marginalia

/-- Where a walk begins: the place of a directory, and the path by which it is named. -/
structure WalkRoot where
  path : RawText
  place : Place
deriving DecidableEq, Repr

namespace View

def withoutHere (path : RawText) : RawText := ([Path.dot, Path.slash].isPrefixOf? path).getD path

def withoutSlash (path : RawText) : RawText := ([Path.slash].isPrefixOf? path).getD path

def isHere (path : RawText) : Bool := Path.components path = [.here]

/-- A path as the rules of a directory see it.  A path without a slash is seen as it is. -/
def seenFrom (directory path : RawText) : RawText :=
  let directory := withoutHere directory
  let path := withoutHere path
  if isHere directory || !List.elem Path.slash path then path
  else match directory.isPrefixOf? path with
    | some rest => withoutSlash rest
    | none => path

end View

namespace WalkRoot

def spelling (root : WalkRoot) (below : Place) : RawText := Path.descend root.path below

def absolute (root : WalkRoot) (spelled : RawText) : RawText :=
  let rest :=
    if View.isHere root.path then spelled
    else View.withoutSlash (((View.withoutHere root.path).isPrefixOf? spelled).getD spelled)
  Path.join (Path.ofNames root.place) rest

/-- The directories whose rules may speak about what lies `below` the root, the nearest one
first, and how they see its path. -/
def views (root : WalkRoot) (below : Place) : List (Place × RawText) :=
  let spelled := View.withoutHere (root.spelling below)
  let absolute := root.absolute spelled
  let onTheWay := (List.range below.length).reverse.map fun depth =>
    let directory := below.take depth
    (root.place ++ directory, View.seenFrom (root.spelling directory) spelled)
  let above := (List.range root.place.length).reverse.map fun depth =>
    let directory := root.place.take depth
    (directory, View.seenFrom (Path.ofNames directory) absolute)
  onTheWay ++ above

end WalkRoot

end Marginalia
