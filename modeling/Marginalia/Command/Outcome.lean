import Marginalia.Command.Json
import Marginalia.Document
import Marginalia.Settings.Configuration
/-!
# How a command ends

A command prints lines to its standard output, one message to its standard error, and
ends with a status: zero if it was carried out, one if it failed, two if it was not
understood.
-/
namespace Marginalia

/-- What a finished command leaves. -/
structure Outcome where
  status : Nat
  output : String
  message : String
deriving DecidableEq, Repr

inductive CommandError
  | configuration (error : ConfigurationError)
  | unreadable (error : ReadError)
  | unparsed (error : ParseError)
  | language (error : UnknownLanguage)
  | json (error : JsonError)
  | notFound (path : RawText)
  | noDiagram (path : RawText) (line : Nat)
  | noLanguage (path : RawText)

def CommandError.message : CommandError → String
  | configuration error => error.message
  | unreadable error => error.message
  | unparsed error => error.message
  | language error => error.message
  | json error => error.message
  | notFound path => s!"Path not found: {path.display}"
  | noDiagram path line => s!"No diagram at {path.display}:{line}"
  | noLanguage path => s!"Cannot determine language of {path.display}, pass --language"

namespace Outcome

def unlines (lines : List String) : String := String.join (lines.map (· ++ "\n"))

def success (output message : List String) : Outcome := ⟨0, unlines output, unlines message⟩

def failure (error : CommandError) : Outcome := ⟨1, "", "Error: " ++ error.message ++ "\n"⟩

def misuse (what : String) : Outcome := ⟨2, "", "error: " ++ what ++ "\n"⟩

def ofResult : Except CommandError Outcome → Outcome
  | .ok outcome => outcome
  | .error e => failure e

end Outcome

end Marginalia
