import Marginalia.LineRange
import Marginalia.Language
import Marginalia.Text.Blank
/-!
# Diagrams

A diagram's markup never begins or ends with white space and is never empty.  A block
is a diagram found in a document, with the lines of the comment that holds it.
-/
namespace Marginalia

/-- The markup of a diagram. -/
structure DiagramCode where
  markup : Text
  trimmed : Text.trim markup = markup
  nonempty : markup ≠ []
deriving DecidableEq, Repr

/-- There is no diagram in a text of white space only. -/
inductive DiagramCodeError
  | empty
deriving DecidableEq, Repr

def DiagramCodeError.message : DiagramCodeError → String
  | empty => "diagram code is empty"

def DiagramCode.ofText (t : Text) : Except DiagramCodeError DiagramCode :=
  if h : t.trim = [] then .error .empty
  else .ok ⟨t.trim, t.trim_trim, h⟩

structure Block where
  code : DiagramCode
  range : LineRange
  language : Language
deriving DecidableEq, Repr

end Marginalia
