import Marginalia.Command.Json
import Marginalia.Command.Outcome
import Marginalia.Ignore.Walk
/-!
# Scanning files for diagrams

`scan` looks for diagrams in files and directories.  A file that is named is scanned if
its language is known; of a directory the walk's files are scanned whose language is
known and whose path below the directory no glob excludes.  A lone dash means the
standard input, in which there are no files to find.  The files are put into the order
of their paths, each path once.  A file that cannot be read or parsed counts as a file
without diagrams.  In JSON nothing is shown if the path of a report is no text.
-/
namespace Marginalia

/-- What is to be scanned and how it is to be shown. -/
structure ScanRequest where
  roots : List RawText := []
  json : Bool := false
  config : Option RawText := none
  overrides : Overrides := {}
deriving DecidableEq, Repr, Inhabited

structure SourceFile where
  path : RawText
  place : Place
  language : Language
deriving DecidableEq, Repr

structure FileReport where
  path : RawText
  blocks : List Block
deriving DecidableEq, Repr

namespace Scan

def walkOptions (c : Configuration) : WalkOptions :=
  ⟨c.settings.hidden, c.settings.respectGitignore⟩

/-- The files to scan for one root: the file itself, or those of the directory. -/
def filesOfRoot (tree : FileTree) (base : Place) (c : Configuration) (root : RawText) :
    List SourceFile :=
  match tree.locate? base root with
  | none => []
  | some place =>
    if (tree.file? place).isSome then
      ((c.languageOf? root).map (⟨root, place, ·⟩)).toList
    else if Path.components root = [.name "-"] then []
    else
      (Walk.files tree base (walkOptions c) ⟨root, place⟩).filterMap fun below =>
        let path := Path.descend root below
        if c.isExcluded ([Path.slash].intercalate below) then none
        else (c.languageOf? path).map (⟨path, place ++ below, ·⟩)

def dropRepeated : List SourceFile → List SourceFile
  | [] => []
  | file :: files =>
    file :: dropRepeated (files.dropWhile fun next =>
      Path.components next.path == Path.components file.path)
termination_by files => files.length
decreasing_by
  have := (List.dropWhile_sublist (l := files) fun next =>
    Path.components next.path == Path.components file.path).length_le
  simp only [List.length_cons]
  omega

def select (tree : FileTree) (base : Place) (c : Configuration) (roots : List RawText) :
    List SourceFile :=
  dropRepeated ((roots.flatMap (filesOfRoot tree base c)).mergeSort fun a b =>
    Path.le a.path b.path)

def report? (tree : FileTree) (file : SourceFile) : Option FileReport := do
  let text ← (tree.read file.place).toOption
  let blocks ← (Document.parse file.language text).toOption
  if blocks.isEmpty then none else some ⟨file.path, blocks⟩

/-- Where a block is: its path, its lines counted from one, and its language. -/
def location (path : RawText) (block : Block) : String :=
  s!"{path.display}:{block.range.first.shown}-{block.range.last.shown} [{block.language.id}]"

/-- The lines that show diagrams: the place, the markup and an empty line for each. -/
def textLines (reports : List FileReport) : List String :=
  reports.flatMap fun report => report.blocks.flatMap fun block =>
    [location report.path block, String.ofList block.code.markup, ""]

def jsonOfBlock (id : String) (block : Block) : Json :=
  .object [
    ("id", .string id),
    ("code", .string (String.ofList block.code.markup)),
    ("range", .object [
      ("start", .number block.range.first.value),
      ("end", .number block.range.last.value)]),
    ("language", .string block.language.id)]

/-- The values that show reports, unless a path is no text; the blocks are numbered through
from `next`, and `newId` gives the identifier of a number. -/
def jsonOfReports (newId : Nat → String) : (next : Nat) → List FileReport → Except JsonError (List Json)
  | _, [] => .ok []
  | next, report :: reports => do
    let path ← Json.ofPath report.path
    let blocks := (report.blocks.zipIdx next).map fun (block, n) => jsonOfBlock (newId n) block
    let items ← jsonOfReports newId (next + report.blocks.length) reports
    return .object [("path", path), ("blocks", .array blocks)] :: items

/-- The lines that show reports. -/
def display (newId : Nat → String) (json : Bool) (reports : List FileReport) :
    Except JsonError (List String) :=
  if json then (jsonOfReports newId 0 reports).map fun items => [Json.render 0 (.array items)]
  else .ok (textLines reports)

def summary (files : List SourceFile) (reports : List FileReport) : String :=
  let total := (reports.flatMap (·.blocks)).length
  if total = 0 then s!"No diagrams found in {files.length} files"
  else s!"Found {total} diagrams in {reports.length} of {files.length} files"

def run (tree : FileTree) (base : Place) (newId : Nat → String) (request : ScanRequest) :
    Except CommandError Outcome := do
  let c ← (Configuration.load tree base request.config request.overrides).mapError .configuration
  let roots : List RawText := if request.roots.isEmpty then ["."] else request.roots
  match roots.find? fun root => (tree.locate? base root).isNone with
  | some missing => throw (.notFound missing)
  | none => pure ()
  let files := select tree base c roots
  let reports := files.filterMap (report? tree)
  let output ← (display newId request.json reports).mapError .json
  return .success output [summary files reports]

end Scan

end Marginalia
