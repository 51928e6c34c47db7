import Marginalia.Comment.Style
import Marginalia.Diagram.Code
import Marginalia.Diagram.Extract
import Marginalia.Text.LineIndex
/-!
# The diagrams of a document

`Document.parse` finds the comments of a document style by style, cleans the body of
each and keeps those whose markup is accepted, with the lines that the whole comment
takes.  The blocks of one style are in the order of the document.  A document that is
too long is refused before anything is looked for; nothing else can fail.
-/
namespace Marginalia

namespace LineIndex

/-- The lines that the bytes from `start` up to `stop` touch; none if there are no such
bytes. -/
def range? (index : LineIndex) (start stop : Nat) : Option LineRange :=
  if stop ≤ start then none
  else do
    let first ← (LineNumber.ofCount (index.lineOf start)).toOption
    let last ← (LineNumber.ofCount (index.lineOf stop)).toOption
    (LineRange.of first last).toOption

end LineIndex

/-- Why a document is not searched. -/
inductive ParseError
  | tooLong (length : Nat)
deriving DecidableEq, Repr

namespace Document

/-- The length of the longest documents that are searched, in characters. -/
def maximumLength : Nat := 1000000

/-- Refuses a document that is too long.  No document has more characters than bytes, so
the characters need counting only where there are enough bytes. -/
def checkLength (text : String) : Except ParseError Unit :=
  if text.utf8ByteSize ≤ maximumLength then .ok ()
  else if text.length ≤ maximumLength then .ok ()
  else .error (.tooLong text.length)

/-- The block that a comment gives rise to, if its markup is accepted. -/
def block? (language : Language) (style : CommentStyle) (index : LineIndex)
    (candidate : Candidate) : Option Block :=
  if candidate.raw.isEmpty then none
  else
    let markup := Diagram.clean style.strip candidate.raw
    if Diagram.isRejected markup then none
    else do
      let code ← (DiagramCode.ofText markup).toOption
      let range ← index.range? candidate.start candidate.stop
      some ⟨code, range, language⟩

/-- The blocks of a text, for each of the styles in turn. -/
def blocks (styles : List CommentStyle) (language : Language) (t : Text) : List Block :=
  let index := LineIndex.ofText t
  styles.flatMap fun style => (style.candidates t).filterMap (block? language style index)

/-- The diagrams of a document with the given grammar, each tagged with `language`. -/
def parseWith (grammar : Grammar) (language : Language) (text : String) :
    Except ParseError (List Block) := do
  checkLength text
  return blocks grammar.styles language text.toList

/-- The diagrams of a document in the given language. -/
def parse (language : Language) (text : String) : Except ParseError (List Block) :=
  parseWith language.grammar language text

def blockAt? (blocks : List Block) (line : LineNumber) : Option Block :=
  blocks.find? (·.range.contains line)

end Document

def ParseError.message : ParseError → String
  | tooLong length =>
    s!"text too long to parse safely ({length} characters, limit {Document.maximumLength})"

end Marginalia
