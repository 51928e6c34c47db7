import Marginalia.Command.Arguments
import Marginalia.Command.Languages
/-!
# Carrying out a command line

`Command.run` is the whole program as a function: from a tree of files, the directory
that the command is given in, a supply of identifiers and the arguments to the outcome.
-/
namespace Marginalia

namespace Command

def version : String := "miv 0.1.0"

def help : List String :=
  ["mermaid diagrams in code comments",
    "",
    "Usage: miv scan [OPTIONS] [PATHS]...",
    "       miv at [OPTIONS] <FILE> <LINE>",
    "       miv languages [OPTIONS]"]

def perform (tree : FileTree) (base : Place) (newId : Nat → String) : Request → Outcome
  | .version => .success [version] []
  | .help => .success help []
  | .scan request => .ofResult (Scan.run tree base newId request)
  | .at request => .ofResult (At.run tree base request)
  | .languages config => .ofResult (Languages.run tree base config)

def run (tree : FileTree) (base : Place) (newId : Nat → String) (arguments : List RawText) :
    Outcome :=
  match Request.ofArguments arguments with
  | .ok request => perform tree base newId request
  | .error e => .misuse e.message

end Command

end Marginalia
