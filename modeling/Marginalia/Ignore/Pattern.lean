/-!
# Patterns of ignore files

An ignore file names paths by patterns over bytes, in which a slash is matched only by a
slash, by a set that holds it, or by `**`:

* `?` is any byte of a component, `*` any bytes of a component;
* `[…]` is a byte of the characters listed, `[!…]` and `[^…]` a byte of no other one; a
  bracket that is never closed stands for itself, and so does every later one;
* `{…,…}` is one of several patterns, of which empty ones do not count;
* `**` as a whole component is any components;
* a backslash makes the next character stand for itself.

A path is matched by *marks* on its places, which say how far a pattern can have come.
Every piece moves the marks on, and a pattern matches a path at whose end it can be.  So
the work is bounded by the size of the pattern times that of the path, however many stars
and braces there are.
-/
namespace Marginalia

inductive PatternPiece
  | byte (b : UInt8)
  /-- One byte, but no slash. -/
  | anyByte
  /-- One byte that lies in some range, or in none if `outside`. -/
  | set (outside : Bool) (ranges : List (UInt8 × UInt8))
  /-- Any bytes, but no slash. -/
  | anything
  /-- Any components and their slashes, at the start of a pattern. -/
  | leading
  /-- A slash and whatever follows, at the end of a pattern. -/
  | trailing
  /-- A slash and any components with their slashes. -/
  | between
  /-- One of several patterns. -/
  | choice (patterns : List (List PatternPiece))
deriving Repr, Inhabited

/-- An ignore pattern. -/
abbrev Pattern := List PatternPiece

namespace Pattern

def slash : UInt8 := '/'.toUInt8

/-! ## Empty patterns

Braces that hold nothing but empty patterns are empty themselves, and so is a pattern of
such braces. -/

mutual

def isEmptyPiece : PatternPiece → Bool
  | .choice patterns => areEmpty patterns
  | _ => false

def isEmpty : List PatternPiece → Bool
  | [] => true
  | piece :: pieces => isEmptyPiece piece && isEmpty pieces

def areEmpty : List (List PatternPiece) → Bool
  | [] => true
  | pattern :: patterns => isEmpty pattern && areEmpty patterns

end

/-! ## Marks -/

/-- For every place of a path, from the one before its first byte to the one behind its
last, whether it is marked. -/
abbrev Marks := List Bool

/-- The mark on the first place only. -/
def start (path : List UInt8) : Marks := true :: path.map fun _ => false

/-- Moves every mark past one byte that `p` allows. -/
def past (p : UInt8 → Bool) (path : List UInt8) (marks : Marks) : Marks :=
  false :: List.zipWith (fun b mark => mark && p b) path marks

/-- Spreads the marks past any number of bytes that `p` allows; `reached` tells whether
they have come to the first place. -/
def pastRun (p : UInt8 → Bool) : (reached : Bool) → List UInt8 → Marks → Marks
  | _, _, [] => []
  | reached, [], mark :: _ => [mark || reached]
  | reached, b :: path, mark :: marks =>
    let mark := mark || reached
    mark :: pastRun p (mark && p b) path marks

/-- Spreads the marks to the places behind later slashes; `seen` tells whether there was a
mark before, and `behind` whether the first place is behind a slash. -/
def pastComponents : (seen behind : Bool) → List UInt8 → Marks → Marks
  | _, _, _, [] => []
  | seen, behind, [], mark :: _ => [mark || (seen && behind)]
  | seen, behind, b :: path, mark :: marks =>
    (mark || (seen && behind)) :: pastComponents (seen || mark) (b == slash) path marks

mutual

def pastPiece (path : List UInt8) : PatternPiece → Marks → Marks
  | .byte b, marks => past (· == b) path marks
  | .anyByte, marks => past (· != slash) path marks
  | .set outside ranges, marks =>
    past (fun c => (ranges.any fun (low, high) => low ≤ c && c ≤ high) != outside) path marks
  | .anything, marks => pastRun (· != slash) false path marks
  | .leading, marks => pastComponents false false path marks
  | .trailing, marks => pastRun (fun _ => true) false path (past (· == slash) path marks)
  | .between, marks => pastComponents false false path (past (· == slash) path marks)
  | .choice patterns, marks => if areEmpty patterns then marks else pastAny path patterns marks

def pastAll (path : List UInt8) : List PatternPiece → Marks → Marks
  | [], marks => marks
  | piece :: pieces, marks => pastAll path pieces (pastPiece path piece marks)

/-- Moves the marks past one of several patterns, the empty ones left aside. -/
def pastAny (path : List UInt8) : List (List PatternPiece) → Marks → Marks
  | [], marks => marks.map fun _ => false
  | pattern :: patterns, marks =>
    if isEmpty pattern then pastAny path patterns marks
    else List.zipWith or (pastAll path pattern marks) (pastAny path patterns marks)

end

/-- Whether a pattern matches the whole of a path.  A pattern that is nothing but `**`
matches every path. -/
def isMatch (pattern : Pattern) (path : List UInt8) : Bool :=
  match pattern with
  | [.leading] => true
  | _ => (pastAll path pattern (start path)).getLast? == some true

/-! ## Nesting

A pattern is nested as deeply as the regular expression that says the same.  There a
sequence of two or more parts is a level, and so is a set, the union of its ranges, a
repetition, a group and the choice in it. -/

mutual

def partsOfPiece : PatternPiece → Nat
  | .trailing => 2
  | .choice patterns => if areEmpty patterns then 0 else 1
  | _ => 1

def parts : List PatternPiece → Nat
  | [] => 0
  | piece :: pieces => partsOfPiece piece + parts pieces

end

def alternatives (patterns : List (List PatternPiece)) : Nat :=
  (patterns.filter fun pattern => !isEmpty pattern).length

mutual

def nestingOfPiece : PatternPiece → Nat
  | .byte _ => 0
  | .anyByte => 1
  | .set _ ranges => if ranges.length ≤ 1 then 1 else 2
  | .anything => 2
  | .trailing => 1
  | .leading | .between => 4
  | .choice patterns =>
    match alternatives patterns with
    | 0 => 0
    | 1 => 1 + nestingOfAny patterns
    | _ => 2 + nestingOfAny patterns

def nestingOfAll : List PatternPiece → Nat
  | [] => 0
  | piece :: pieces => max (nestingOfPiece piece) (nestingOfAll pieces)

def nestingOfAny : List (List PatternPiece) → Nat
  | [] => 0
  | pattern :: patterns =>
    max (nestingOfAll pattern + if parts pattern ≤ 1 then 0 else 1) (nestingOfAny patterns)

end

/-- How deeply a pattern is nested.  The two ends of the path are parts too, so a whole
pattern is always a sequence. -/
def nesting (pattern : Pattern) : Nat := nestingOfAll pattern + 1

def maximumNesting : Nat := 250

end Pattern

end Marginalia
