import Marginalia.Command.Run
/-!
# What a command line can look at

A command line looks at the files it names, at what lies below the directories it names,
and, in these and in the directories above them, at the settings file and at ignore
files.  Links to git directories lead on to other files.  This is a bound: nothing else of
a tree of files can change what it answers.
-/
namespace Marginalia

structure Surroundings where
  /-- The places whose whole content belongs to the part. -/
  whole : List Place
  /-- The places that belong to it by themselves. -/
  single : List Place
deriving DecidableEq, Repr

def Request.roots : Request → List RawText
  | .scan request => if request.roots.isEmpty then ["."] else request.roots
  | _ => []

def Request.files : Request → List RawText
  | .scan request => request.config.toList
  | .at request => request.file :: request.config.toList
  | .languages config => config.toList
  | _ => []

namespace Surroundings

/-- The places that the pieces of a path pass through, the last one first. -/
def way : (pieces : List RawText) → Place → (passed : List Place) → List Place
  | [], place, passed => place :: passed
  | piece :: pieces, place, passed =>
    let next :=
      if piece = [] ∨ piece = [Path.dot] then place
      else if piece = [Path.dot, Path.dot] then place.dropLast
      else place ++ [piece]
    way pieces next (place :: passed)

/-- The places that a path passes through, seen from the directory `base`. -/
def wayOfPath (base : Place) (path : RawText) : List Place :=
  way (Path.pieces path) (if path.head? = some Path.slash then [] else base) []

def notices (directory : Place) : List Place :=
  [[Configuration.fileName], [".ignore"], [".gitignore"], [GitLink.fileName],
    [GitLink.fileName, "info", "exclude"]].map (directory ++ ·)

def upward (place : Place) : List Place := (List.range (place.length + 1)).map place.take

def outermost (places : List Place) : List Place :=
  (places.filter fun place => !places.any fun other => other.isPrefixOf place && other != place).eraseDups

/-- What a request looks at when it is made in the directory `base`. -/
def ofRequest (base : Place) (request : Request) : Surroundings :=
  let whole := outermost (request.roots.filterMap fun path => (wayOfPath base path).head?)
  let passed := base :: (request.roots ++ request.files).flatMap (wayOfPath base)
  let single := (passed.flatMap upward).eraseDups.flatMap fun place => place :: notices place
  { whole, single := single.eraseDups.filter fun place => !whole.any (·.isPrefixOf place) }

/-- What a command line looks at when it is given in the directory `base`. -/
def ofArguments (base : Place) (arguments : List RawText) : Surroundings :=
  match Request.ofArguments arguments with
  | .ok request => ofRequest base request
  | .error _ => ⟨[], []⟩

/-- The places to which the links of a tree lead, as far as the tree shows the way. -/
def linked (tree : FileTree) (base : Place) : List Place :=
  tree.files.flatMap fun (file, content) =>
    match if file.getLast? = some GitLink.fileName then GitLink.target? content else none with
    | none => []
    | some directory =>
      let pointer := GitLink.pointerPath directory
      let excludes := (tree.fileAt? base pointer).bind (GitLink.excludePath? directory)
      (pointer :: excludes.toList).flatMap (wayOfPath base)

end Surroundings

end Marginalia
