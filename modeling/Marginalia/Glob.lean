import Marginalia.Text.Basic
/-!
# Glob patterns

A glob is a text in which some characters stand for others:

* `?` for any one character;
* `[…]` for one character of a set and `[!…]` for one character outside it, where `x-y`
  is the range from `x` to `y` and a `]` in the first place belongs to the set;
* `*` for any characters, also none;
* `**`, which has to be a whole component of the path, for any components, also none.

The path is taken as it is written: a dot or a slash is a character as any other, and
`*`, `?` and sets match them too.
-/
namespace Marginalia

inductive GlobPiece
  /-- The character itself. -/
  | char (c : Char)
  /-- Any one character. -/
  | anyChar
  /-- One character that lies in some range, or in none if `outside`. -/
  | set (outside : Bool) (ranges : List (Char × Char))
  /-- Any characters. -/
  | anything
  /-- Any components of a path, each with its slash, or the whole rest of the path. -/
  | components
deriving DecidableEq, Repr

inductive GlobFault
  | tooManyStars
  | partialComponent
  | unclosedSet
deriving DecidableEq, Repr

/-- A fault and the place, in characters, near which it was noticed. -/
structure GlobError where
  position : Nat
  fault : GlobFault
deriving DecidableEq, Repr

def GlobFault.message : GlobFault → String
  | tooManyStars => "wildcards are either regular `*` or recursive `**`"
  | partialComponent => "recursive wildcards must form a single path component"
  | unclosedSet => "invalid range pattern"

def GlobError.message (e : GlobError) : String :=
  s!"Pattern syntax error near position {e.position}: {e.fault.message}"

/-- A glob, piece by piece. -/
structure Glob where
  pieces : List GlobPiece
deriving DecidableEq, Repr

namespace Glob

/-- The ranges of a set.  A `-` between two characters makes a range; every other
character stands for itself. -/
def ranges : Text → List (Char × Char)
  | low :: '-' :: high :: rest => (low, high) :: ranges rest
  | c :: rest => (c, c) :: ranges rest
  | [] => []

/-- Reads the set whose `[` has just been passed, and returns the rest. -/
def set? (t : Text) : Option (GlobPiece × Text) :=
  let (outside, t) := match t with
    | '!' :: t => (true, t)
    | t => (false, t)
  match t with
  | [] => none
  | first :: t => (Text.cut? [']'] t).map fun (more, rest) => (.set outside (ranges (first :: more)), rest)

theorem length_of_set? {t rest : Text} {piece : GlobPiece} (h : set? t = some (piece, rest)) :
    rest.length ≤ t.length := by
  unfold set? at h
  split at h
  rename_i ht
  split at h
  · simp at h
  · rename_i first t' hs
    simp only [Option.map_eq_some_iff, Prod.mk.injEq] at h
    obtain ⟨⟨more, rest'⟩, hc, -, rfl⟩ := h
    have := Text.length_of_cut? hc
    split at ht
    · cases ht; simp only [List.length_cons]; omega
    · cases ht; simp only [List.length_cons]; omega

/-- Adds a recursive wildcard, unless the pieces so far already end in one and hold
something before it. -/
def addComponents : List GlobPiece → List GlobPiece
  | .components :: piece :: pieces => .components :: piece :: pieces
  | pieces => .components :: pieces

/-- Reads the rest of a glob at `position`, where `previous` is the character before it and
`pieces` are those read so far, in reverse. -/
def readFrom (position : Nat) (previous : Option Char) (pieces : List GlobPiece) :
    Text → Except GlobError Glob
  | [] => .ok ⟨pieces.reverse⟩
  | '?' :: t => readFrom (position + 1) (some '?') (.anyChar :: pieces) t
  | '[' :: t =>
    match h : set? t with
    | none => .error ⟨position, .unclosedSet⟩
    | some (piece, rest) =>
      have := length_of_set? h
      readFrom (position + (t.length + 1 - rest.length)) (some ']') (piece :: pieces) rest
  | '*' :: '*' :: '*' :: _ => .error ⟨position + 2, .tooManyStars⟩
  | '*' :: '*' :: t =>
    if previous = none ∨ previous = some '/' then
      match t with
      | [] => .ok ⟨(addComponents pieces).reverse⟩
      | '/' :: t => readFrom (position + 3) (some '/') (addComponents pieces) t
      | _ => .error ⟨position + 2, .partialComponent⟩
    else .error ⟨position - 1, .partialComponent⟩
  | '*' :: t => readFrom (position + 1) (some '*') (.anything :: pieces) t
  | c :: t => readFrom (position + 1) (some c) (.char c :: pieces) t
termination_by t => t.length

def ofText (t : Text) : Except GlobError Glob := readFrom 0 none [] t

/-! ## Matching

A wildcard is tried with nothing first, then with more and more.  When the pieces behind
it run out of text, giving it more cannot help: they would be left with even less, and a
wildcard among them has tried all of that already.  So such an attempt ends the whole
match, and of many wildcards only the last one reached is ever tried again. -/

inductive Attempt
  | success
  | failure
  /-- The text ran out. -/
  | exhausted
deriving DecidableEq, Repr

/-- Tries a text and then its later parts, the empty one included, until an attempt does
not fail. -/
def search (attempt : Text → Attempt) : Text → Attempt
  | [] => attempt []
  | c :: t =>
    match attempt (c :: t) with
    | .failure => search attempt t
    | done => done

/-- Tries the parts of a text behind its slashes, and last the empty one, until an attempt
does not fail. -/
def searchComponents (attempt : Text → Attempt) : Text → Attempt
  | [] => attempt []
  | '/' :: t =>
    match attempt t with
    | .failure => searchComponents attempt t
    | done => done
  | _ :: t => searchComponents attempt t

def attempt : List GlobPiece → Text → Attempt
  | [], [] => .success
  | [], _ :: _ => .failure
  | .anything :: pieces, t => search (attempt pieces) t
  | .components :: pieces, t =>
    match attempt pieces t with
    | .failure => searchComponents (attempt pieces) t
    | done => done
  | _ :: _, [] => .exhausted
  | .char x :: pieces, c :: t => if c == x then attempt pieces t else .failure
  | .anyChar :: pieces, _ :: t => attempt pieces t
  | .set outside ranges :: pieces, c :: t =>
    if (ranges.any fun (low, high) => low ≤ c && c ≤ high) != outside then attempt pieces t
    else .failure

def isMatch (g : Glob) (t : Text) : Bool := attempt g.pieces t == .success

end Glob

end Marginalia
