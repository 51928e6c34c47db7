import Marginalia.Command.Outcome
/-!
# The list of languages

`languages` prints a line for every language: its identifier, the extensions of its files,
those of the configuration last, and the language whose grammar of comments it shares.
-/
namespace Marginalia

namespace Languages

def pad (width : Nat) (s : String) : String :=
  s ++ String.ofList (List.replicate (width - s.length) ' ')

/-- A configured extension as it is listed: in small ASCII letters and behind one dot. -/
def shownExtension (ext : String) : String :=
  "." ++ (String.ofList (ext.toList.dropWhile (· == '.'))).toLower

/-- The extensions that are listed for a language. -/
def extensions (c : Configuration) (language : Language) : List String :=
  let configured := c.settings.extensions.filter fun (_, id) => id == language.id
  language.extensions.map ("." ++ ·) ++
    (configured.map fun (ext, _) => shownExtension ext).mergeSort fun a b => decide (a ≤ b)

def line (c : Configuration) (language : Language) : String :=
  let extensions := " ".intercalate (extensions c language)
  s!"{pad 16 language.id} {pad 20 extensions} parser: {language.grammar.language.id}"

def run (tree : FileTree) (base : Place) (config : Option RawText) : Except CommandError Outcome := do
  let c ← (Configuration.load tree base config {}).mapError .configuration
  return .success (Language.all.map (line c)) []

end Languages

end Marginalia
