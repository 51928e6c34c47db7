import Marginalia.Diagram.Heading
import Marginalia.Diagram.Keyword
import Marginalia.Text.Lines
/-!
# From the body of a comment to the markup of its diagram

The body is cleaned in three steps: every line loses its decoration and the white space
at its end, the lines lose their common indentation, and of the lines the diagram is
kept.  The diagram runs from the first line that starts one to the line before the next
heading of a documentation section or before the second of two blank lines.  A body
without any such start is kept whole.
-/
namespace Marginalia

namespace Diagram

/-- Whether a line that follows `previous` lies past the end of the diagram. -/
def isPast (previous line : Text) : Bool :=
  isHeading line.trim || (previous.isAllBlank && line.isAllBlank)

/-- The lines after a diagram's first line that still belong to it. -/
def continuation (first : Text) (rest : List Text) : List Text :=
  (((first :: rest).zip rest).takeWhile fun (previous, line) => !isPast previous line).map (·.2)

def extract (lines : List Text) : Text :=
  match lines.dropWhile fun line => !isStart line.trim with
  | [] => (Text.joinLines lines).trim
  | first :: rest => (Text.joinLines (first :: continuation first rest)).trim

/-- The diagram in the body of a comment whose lines are decorated as `strip` undoes it. -/
def clean (strip : Text → Text) (raw : Text) : Text :=
  extract (Text.dedent (raw.splitLines.map fun line => (strip line).trimEnd))

def minimumLength : Nat := 3

/-- Fragments of an editor's settings file, which mentions diagrams without holding one. -/
def settingsFragments : List Text :=
  ["\"mermaidInlineViewer", "\": \x7b"].map String.toList

/-- Whether markup is too short, or is no markup but a piece of settings. -/
def isRejected (markup : Text) : Bool :=
  markup.length < minimumLength || settingsFragments.any fun fragment => Text.contains fragment markup

end Diagram

end Marginalia
