import Marginalia.Text.Blank
/-!
# Lines

Lines are separated by newlines alone; a carriage return is an ordinary blank
character at the end of its line.  `splitLines` and `joinLines` are inverse to each
other on lists of lines that hold no newline, except that no list of lines is written
as the empty text, which is read as one empty line.
-/
namespace Marginalia

namespace Text

/-- The pieces between newlines, at least one. -/
def splitLines (t : Text) : List Text := split '\n' t

def joinLines (lines : List Text) : Text := List.intercalate ['\n'] lines

/-- The least indentation of a line that is not blank; zero when all are blank. -/
def commonIndentation (lines : List Text) : Nat :=
  ((lines.filter fun line => !line.isAllBlank).map indentation).min?.getD 0

/-- Takes the common indentation off every line.  A blank line that is shorter than it
becomes empty. -/
def dedent (lines : List Text) : List Text :=
  let depth := commonIndentation lines
  lines.map (·.drop depth)

end Text

end Marginalia
