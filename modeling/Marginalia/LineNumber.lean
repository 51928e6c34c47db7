/-!
# Line numbers

Lines are numbered from zero with numbers of 32 bits, so below 4294967296.
-/
namespace Marginalia

/-- The zero-based number of a line. -/
structure LineNumber where
  value : Nat
  value_lt : value < 4294967296
deriving DecidableEq, Repr

inductive LineNumberError
  | negative (value : Int)
  | outOfRange (value : Int)
deriving DecidableEq, Repr

namespace LineNumberError

def message : LineNumberError → String
  | negative value => s!"line number must be non-negative, got {value}"
  | outOfRange value => s!"line number {value} is out of range"

end LineNumberError

namespace LineNumber

instance : LE LineNumber := ⟨fun a b => a.value ≤ b.value⟩

instance (a b : LineNumber) : Decidable (a ≤ b) := Nat.decLe a.value b.value

/-- A count of lines as a line number.  A count past the signed 64-bit numbers is
reported as the largest of them. -/
def ofCount (count : Nat) : Except LineNumberError LineNumber :=
  if h : count < 4294967296 then .ok ⟨count, h⟩
  else .error (.outOfRange (min count 9223372036854775807))

def ofInt : Int → Except LineNumberError LineNumber
  | .ofNat value => if h : value < 4294967296 then .ok ⟨value, h⟩ else .error (.outOfRange value)
  | .negSucc value => .error (.negative (.negSucc value))

def shown (line : LineNumber) : Nat := line.value + 1

end LineNumber

end Marginalia
