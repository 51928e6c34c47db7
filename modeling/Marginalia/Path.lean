import Marginalia.Text.Raw
/-!
# Paths

A path is written as names with slashes between them; it is made of bytes, and need not
be text.  It is taken apart into components: repeated slashes count once, and a dot counts
only where a relative path begins with it.  Two paths are equal, and are ordered, by their
components; what a path leads to is decided by a tree of files, not here.
-/
namespace Marginalia

/-- A step of a path. -/
inductive Component
  /-- The top of the tree, where an absolute path begins. -/
  | top
  /-- The dot that a relative path begins with. -/
  | here
  /-- The directory above. -/
  | up
  | name (name : RawText)
deriving DecidableEq, Repr

namespace Component

/-- The key by which components are ordered: names come last, by their bytes. -/
def key : Component → List Nat
  | top => [0]
  | here => [1]
  | up => [2]
  | name s => 3 :: s.map UInt8.toNat

end Component

namespace Path

def slash : UInt8 := '/'.toUInt8

def dot : UInt8 := '.'.toUInt8

def pieces (path : RawText) : List RawText := path.splitOn slash

def component? (piece : RawText) : Option Component :=
  if piece = [] ∨ piece = [dot] then none
  else if piece = [dot, dot] then some .up
  else some (.name piece)

def components (path : RawText) : List Component :=
  match pieces path with
  | [] => []
  | first :: rest =>
    let start :=
      if first = [] then (if rest.isEmpty then [] else [Component.top])
      else if first = [dot] then [.here]
      else (component? first).toList
    start ++ rest.filterMap component?

/-- The order of lists by their first difference; a list goes before those it begins. -/
def lexLe {α : Type} [DecidableEq α] (le : α → α → Bool) : List α → List α → Bool
  | [], _ => true
  | _ :: _, [] => false
  | a :: s, b :: t => if a = b then lexLe le s t else le a b

/-- The order of paths: the first components that differ decide. -/
def le (a b : RawText) : Bool :=
  lexLe (lexLe Nat.ble) ((components a).map Component.key) ((components b).map Component.key)

def fileName? (path : RawText) : Option RawText :=
  match (components path).getLast? with
  | some (.name s) => some s
  | _ => none

/-- The part of a name behind its last dot, if there is something before that dot. -/
def extensionOfName? (name : RawText) : Option RawText :=
  match (name.splitOn dot).reverse with
  | last :: before :: more => if more.isEmpty && before.isEmpty then none else some last
  | _ => none

def extension? (path : RawText) : Option RawText := (fileName? path).bind extensionOfName?

/-- The path that leads on from `path` along `next`, unless `next` begins at the top. -/
def join (path next : RawText) : RawText :=
  if path = [] ∨ next.head? = some slash then next
  else if path.getLast? = some slash then path ++ next
  else path ++ slash :: next

def descend (path : RawText) (names : List RawText) : RawText :=
  if names.isEmpty then path else join path ([slash].intercalate names)

def ofNames (names : List RawText) : RawText := slash :: [slash].intercalate names

end Path

end Marginalia
