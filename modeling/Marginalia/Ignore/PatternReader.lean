import Marginalia.Ignore.Pattern
import Marginalia.Text.Basic
/-!
# Reading ignore patterns

`Pattern.ofText?` reads a pattern, or refuses it because a brace has no partner, a range
runs backwards or nothing follows a backslash.
-/
namespace Marginalia

namespace Pattern

def bytesOf (c : Char) : List UInt8 := (String.singleton c).toUTF8.toList

inductive Bracket
  | unclosed
  | backwards
  | closed (ranges : List (Char × Char)) (rest : Text)

/-- Reads a set behind its opening bracket.  `first` tells whether nothing has been read
yet, and `inRange` whether the last character but one began a range that `-` is to
extend; `ranges` are those so far, in reverse. -/
def bracketFrom (first inRange : Bool) (ranges : List (Char × Char)) : Text → Bracket
  | [] => .unclosed
  | c :: t =>
    if c = ']' ∧ !first then
      .closed (if inRange then ('-', '-') :: ranges else ranges).reverse t
    else if c = '-' ∧ !first ∧ !inRange then bracketFrom false true ranges t
    else
      match inRange, ranges with
      | true, (low, _) :: ranges =>
        if c < low then .backwards else bracketFrom false false ((low, c) :: ranges) t
      | _, _ => bracketFrom false false ((c, c) :: ranges) t

/-- Reads a set behind its opening bracket, and whether it is the set of all others. -/
def bracket : Text → Bool × Bracket
  | '!' :: t => (true, bracketFrom true false [] t)
  | '^' :: t => (true, bracketFrom true false [] t)
  | t => (false, bracketFrom true false [] t)

theorem length_of_bracketFrom {first inRange : Bool} {ranges found : List (Char × Char)}
    {t rest : Text} (h : bracketFrom first inRange ranges t = .closed found rest) :
    rest.length ≤ t.length := by
  fun_induction bracketFrom first inRange ranges t with
  | case1 => cases h
  | case2 => cases h; simp
  | case3 _ _ _ _ _ _ _ ih => exact Nat.le_succ_of_le (ih h)
  | case4 => cases h
  | case5 _ _ _ _ _ _ _ _ _ ih => exact Nat.le_succ_of_le (ih h)
  | case6 _ _ _ _ _ _ _ _ ih => exact Nat.le_succ_of_le (ih h)

theorem length_of_bracket {t rest : Text} {outside : Bool} {found : List (Char × Char)}
    (h : bracket t = (outside, .closed found rest)) : rest.length ≤ t.length := by
  unfold bracket at h
  split at h <;> have := length_of_bracketFrom (Prod.mk.inj h).2 <;> simp_all <;> omega

/-- The byte ranges of a range of characters.  A set compares bytes, so of the characters
outside ASCII it takes the bytes apart. -/
def byteRanges (range : Char × Char) : List (UInt8 × UInt8) :=
  let single (b : UInt8) : UInt8 × UInt8 := (b, b)
  let low := bytesOf range.1
  let high := bytesOf range.2
  if range.1 = range.2 then low.map single
  else
    match low.getLast?, high.head? with
    | some b, some c => low.dropLast.map single ++ (b, c) :: high.tail.map single
    | _, _ => []

/-- A pattern that is being read: the pieces so far, in reverse, and for every open brace
the alternatives that are finished and the pieces before the brace, all in reverse. -/
structure Unfinished where
  pieces : List PatternPiece
  braces : List (List Pattern × List PatternPiece)

namespace Unfinished

def push (u : Unfinished) (piece : PatternPiece) : Unfinished :=
  { u with pieces := piece :: u.pieces }

def pushChar (u : Unfinished) (c : Char) : Unfinished :=
  { u with pieces := ((bytesOf c).map .byte).reverse ++ u.pieces }

def openBrace (u : Unfinished) : Unfinished := ⟨[], ([], u.pieces) :: u.braces⟩

/-- A comma separates alternatives inside braces and stands for itself outside. -/
def comma (u : Unfinished) : Unfinished :=
  match u.braces with
  | [] => u.pushChar ','
  | (alternatives, before) :: braces => ⟨[], (u.pieces.reverse :: alternatives, before) :: braces⟩

def closeBrace? (u : Unfinished) : Option Unfinished :=
  match u.braces with
  | [] => none
  | (alternatives, before) :: braces =>
    some ⟨.choice (u.pieces.reverse :: alternatives).reverse :: before, braces⟩

def finish? (u : Unfinished) : Option Pattern :=
  if u.braces.isEmpty then some u.pieces.reverse else none

/-- Adds a `**` that follows a slash or another `**`; the slash belongs to it. -/
def pushComponents (u : Unfinished) (isLast : Bool) : Unfinished :=
  match u.pieces with
  | .leading :: pieces => { u with pieces := .leading :: pieces }
  | .trailing :: pieces => { u with pieces := .trailing :: pieces }
  | _ :: pieces => { u with pieces := (if isLast then .trailing else .between) :: pieces }
  | [] => u

end Unfinished

/-- Reads the rest of a pattern.  `previous` is the character before it, and `literal`
tells whether brackets stand for themselves. -/
def readFrom? (literal : Bool) (previous : Option Char) (u : Unfinished) (t : Text) :
    Option Pattern :=
  match t with
  | [] => u.finish?
  | '?' :: t => readFrom? literal (some '?') (u.push .anyByte) t
  | '[' :: t =>
    if literal then readFrom? literal (some '[') (u.pushChar '[') t
    else
      match h : bracket t with
      | (_, .unclosed) => readFrom? true (some '[') (u.pushChar '[') t
      | (_, .backwards) => none
      | (outside, .closed ranges rest) =>
        have := length_of_bracket h
        readFrom? literal (some ']') (u.push (.set outside (ranges.flatMap byteRanges))) rest
  | '\x7b' :: t => readFrom? literal (some '\x7b') u.openBrace t
  | '\x7d' :: t =>
    match u.closeBrace? with
    | some u => readFrom? literal (some '\x7d') u t
    | none => none
  | ',' :: t => readFrom? literal (some ',') u.comma t
  | '\\' :: c :: t => readFrom? literal (some c) (u.pushChar c) t
  | ['\\'] => none
  | '*' :: '*' :: t =>
    let stars := (u.push .anything).push .anything
    if u.pieces.isEmpty then
      match t with
      | [] => (u.push .leading).finish?
      | '/' :: t => readFrom? literal (some '/') (u.push .leading) t
      | t => readFrom? literal (some '*') stars t
    else if previous = some '/' ∨
        (!u.braces.isEmpty ∧ (previous = some ',' ∨ previous = some '\x7b')) then
      match t with
      | [] => (u.pushComponents true).finish?
      | '/' :: t => readFrom? literal (some '/') (u.pushComponents false) t
      | c :: t =>
        if !u.braces.isEmpty ∧ (c = ',' ∨ c = '\x7d') then
          readFrom? literal (some '*') (u.pushComponents true) (c :: t)
        else readFrom? literal (some '*') stars (c :: t)
    else readFrom? literal (some '*') stars t
  | '*' :: t => readFrom? literal (some '*') (u.push .anything) t
  | c :: t => readFrom? literal (some c) (u.pushChar c) t
termination_by t.length

def ofText? (t : Text) : Option Pattern := readFrom? false none ⟨[], []⟩ t

end Pattern

end Marginalia
