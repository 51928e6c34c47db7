import Marginalia.LineNumber
/-!
# Ranges of lines

A range has a first and a last line and contains both, so it is never empty.
-/
namespace Marginalia

/-- The lines from `first` to `last`, both included. -/
structure LineRange where
  first : LineNumber
  last : LineNumber
  first_le_last : first ≤ last
deriving DecidableEq, Repr

/-- The last line of a range lies before the first one. -/
structure LineRangeError where
  first : LineNumber
  last : LineNumber
deriving DecidableEq, Repr

def LineRangeError.message (e : LineRangeError) : String :=
  s!"range end {e.last.value} is before start {e.first.value}"

namespace LineRange

def of (first last : LineNumber) : Except LineRangeError LineRange :=
  if h : first ≤ last then .ok ⟨first, last, h⟩ else .error ⟨first, last⟩

def contains (range : LineRange) (line : LineNumber) : Bool :=
  range.first ≤ line && line ≤ range.last

def lineCount (range : LineRange) : Nat := range.last.value - range.first.value + 1

end LineRange

end Marginalia
