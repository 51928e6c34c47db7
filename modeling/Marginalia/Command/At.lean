import Marginalia.Command.Outcome
/-!
# The diagram at a line

`at` prints the first diagram of a file whose comment covers a line.  Lines are counted
from one.
-/
namespace Marginalia

/-- The line that a diagram is looked for at. -/
structure AtRequest where
  file : RawText
  line : Nat
  language : Option String := none
  config : Option RawText := none
deriving DecidableEq, Repr, Inhabited

namespace At

def language (c : Configuration) (request : AtRequest) : Except CommandError Language :=
  match request.language with
  | some id => (Language.ofId id).mapError .language
  | none =>
    match c.languageOf? request.file with
    | some language => .ok language
    | none => .error (.noLanguage request.file)

def block? (blocks : List Block) (line : Nat) : Option Block :=
  match line with
  | 0 => none
  | line + 1 => (LineNumber.ofCount line).toOption.bind (Document.blockAt? blocks)

def run (tree : FileTree) (base : Place) (request : AtRequest) : Except CommandError Outcome := do
  let place ← match tree.locate? base request.file with
    | some place => pure place
    | none => throw (.notFound request.file)
  let c ← (Configuration.load tree base request.config {}).mapError .configuration
  let language ← language c request
  let text ← (tree.read place).mapError .unreadable
  let blocks ← (Document.parse language text).mapError .unparsed
  match block? blocks request.line with
  | some block => return .success [String.ofList block.code.markup] []
  | none => throw (.noDiagram request.file request.line)

end At

end Marginalia
