import Marginalia.Text.Blank
import Marginalia.Text.Fold
/-!
# Where documentation goes on

Inside a comment a diagram ends where a documentation section begins.  A line is the
heading of a section when it begins with

* one of the known titles, in any case, with a colon right behind it;
* one or two `#` and a blank character;
* a capitalized ASCII word, in exactly this case, with a colon right behind it.
-/
namespace Marginalia

namespace Diagram

/-- The known titles.  Between the words of a title there may be any white space, but
there must be some. -/
def headingTitles : List (List Text) :=
  [["セキュリティ考慮事項"], ["Security"], ["Security", "Considerations"],
    ["環境変数"], ["Environment"], ["Environment", "Variables"],
    ["使用方法"], ["Usage"], ["CSVフォーマット"], ["CSV", "Format"],
    ["注意事項"], ["Note"], ["Notes"], ["参考"], ["Reference"], ["References"]].map
      (·.map String.toList)

/-- What follows the words of a title in a text that begins with them. -/
def afterTitle? : (title : List Text) → Text → Option Text
  | [], t => some t
  | [word], t => Text.afterWord? word t
  | word :: title, t =>
    match Text.afterWord? word t with
    | some (c :: rest) => if isBlank c then afterTitle? title (Text.trimStart rest) else none
    | _ => none

def isTitled (line : Text) : Bool :=
  headingTitles.any fun title => (afterTitle? title line).any (·.head? == some ':')

def isNumbered : Text → Bool
  | '#' :: '#' :: c :: _ => isBlank c
  | '#' :: c :: _ => isBlank c
  | _ => false

def isCapitalized : Text → Bool
  | c :: t => c.isUpper && t.head?.any Char.isLower && (t.dropWhile Char.isLower).head? == some ':'
  | [] => false

/-- Whether a line, taken as it stands, is the heading of a documentation section. -/
def isHeading (line : Text) : Bool := isTitled line || isNumbered line || isCapitalized line

end Diagram

end Marginalia
