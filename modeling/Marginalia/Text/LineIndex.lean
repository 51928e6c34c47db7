import Marginalia.Text.Basic
/-!
# From byte offsets to lines

The zero-based line of a byte offset is the number of newlines before it.  `lineOf`
counts them in a text; `LineIndex` holds the offsets of all newlines in rising order,
so that one line is found by halving the table instead of reading the text again.
-/
namespace Marginalia

namespace Text

def newlineOffsets (t : Text) : Array Nat :=
  (t.foldl (fun (offset, found) c =>
    (offset + c.utf8Size, if c = '\n' then found.push offset else found)) (0, #[])).2

/-- The number of newlines that stand below `offset`, counted character by character. -/
def lineOf : (t : Text) → (offset : Nat) → Nat
  | [], _ => 0
  | _ :: _, 0 => 0
  | c :: t, offset => (if c = '\n' then 1 else 0) + lineOf t (offset - c.utf8Size)

end Text

/-- The newline offsets of one text, in rising order. -/
structure LineIndex where
  newlines : Array Nat

namespace LineIndex

def ofText (t : Text) : LineIndex := ⟨t.newlineOffsets⟩

/-- The first index in `low ..< high` whose entry is not below `offset`, or `high`, when
the entries rise and those before `low` are below `offset`. -/
def search (newlines : Array Nat) (offset low high : Nat) : Nat :=
  if low < high then
    let middle := low + (high - low) / 2
    match newlines[middle]? with
    | some entry =>
      if entry < offset then search newlines offset (middle + 1) high
      else search newlines offset low middle
    | none => search newlines offset low middle
  else low
termination_by high - low

def lineOf (index : LineIndex) (offset : Nat) : Nat :=
  search index.newlines offset 0 index.newlines.size

end LineIndex

end Marginalia
