import Marginalia.Ignore.GitLink
import Marginalia.Ignore.Rule
import Marginalia.Ignore.View
/-!
# Walking a directory

A walk finds the files below a directory and leaves out what ignore files name and what
is hidden.  Whatever lies in a directory that is left out is left out too; the directory
that the walk begins with never is.

Of every directory from a path's own up to the top of the tree the files `.ignore`,
`.gitignore` and `.git/info/exclude` may speak about the path.  For each kind of file the
nearest one that says anything decides, and the kinds decide in this order.  A path that
is kept is not left out for being hidden.  Where `.git` is a file, the excludes are those
that it leads to.
-/
namespace Marginalia

/-- What a walk leaves out besides what `.ignore` files name. -/
structure WalkOptions where
  /-- Go into hidden files and directories. -/
  hidden : Bool
  /-- Respect `.gitignore` and `.git/info/exclude`. -/
  respectGitignore : Bool
deriving DecidableEq, Repr

/-- The rules of all ignore files of one kind, with the directories they speak for. -/
abbrev RuleTable := List (Place × List IgnoreRule)

namespace RuleTable

def ofTree (tree : FileTree) (name : RawText) : RuleTable :=
  tree.files.filterMap fun (file, content) =>
    if file.getLast? = some name then some (file.dropLast, IgnoreRule.ofFile content) else none

/-- The rules that lie in the directories `.git` of a tree, or to which the files of this
name lead. -/
def ofGit (tree : FileTree) (base : Place) : RuleTable :=
  let location : Place := [GitLink.fileName, "info", "exclude"]
  tree.files.filterMap fun (file, content) =>
    if location.isSuffixOf file then
      some (file.take (file.length - location.length), IgnoreRule.ofFile content)
    else if file.getLast? = some GitLink.fileName then
      (GitLink.excludes? tree base content).map fun excludes =>
        (file.dropLast, IgnoreRule.ofFile excludes)
    else none

/-- What the nearest rules that say anything say about a path, given how the directories
see it. -/
def verdict? (table : RuleTable) (views : List (Place × RawText)) (isDirectory : Bool) :
    Option Verdict :=
  views.findSome? fun (directory, path) =>
    (table.lookup directory).bind fun rules => IgnoreRule.verdict? rules path isDirectory

end RuleTable

structure IgnoreFiles where
  ignore : RuleTable
  gitignore : RuleTable
  gitExclude : RuleTable

namespace IgnoreFiles

/-- The ignore files that a walk looks at; `base` is the working directory. -/
def ofTree (tree : FileTree) (base : Place) (options : WalkOptions) : IgnoreFiles where
  ignore := .ofTree tree ".ignore"
  gitignore := if options.respectGitignore then .ofTree tree ".gitignore" else []
  gitExclude := if options.respectGitignore then .ofGit tree base else []

/-- What the ignore files say about a path, given how the directories see it. -/
def verdict? (files : IgnoreFiles) (views : List (Place × RawText)) (isDirectory : Bool) :
    Option Verdict :=
  files.ignore.verdict? views isDirectory <|> files.gitignore.verdict? views isDirectory <|>
    files.gitExclude.verdict? views isDirectory

end IgnoreFiles

namespace Walk

def isHidden (place : Place) : Bool := (place.getLast?.bind (·.head?)) == some Path.dot

/-- Whether a walk leaves out what lies `below` its root, for its own sake. -/
def isSkipped (files : IgnoreFiles) (options : WalkOptions) (root : WalkRoot) (below : Place)
    (isDirectory : Bool) : Bool :=
  match files.verdict? (root.views below) isDirectory with
  | some .ignore => true
  | some .keep => false
  | none => !options.hidden && isHidden below

/-- Whether a walk reaches the file that lies `below` its root: neither the file nor a
directory on the way is left out. -/
def reaches (files : IgnoreFiles) (options : WalkOptions) (root : WalkRoot) (below : Place) : Bool :=
  (List.range below.length).all fun depth =>
    !isSkipped files options root (below.take (depth + 1)) (depth + 1 != below.length)

/-- The files that a walk finds, as seen from its root; `base` is the working directory. -/
def files (tree : FileTree) (base : Place) (options : WalkOptions) (root : WalkRoot) : List Place :=
  let ignoreFiles := IgnoreFiles.ofTree tree base options
  tree.files.filterMap fun (file, _) =>
    let below := file.drop root.place.length
    if root.place.isPrefixOf file && !below.isEmpty && reaches ignoreFiles options root below then
      some below
    else none

end Walk

end Marginalia
