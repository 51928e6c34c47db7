import Marginalia.Text.Blank
import Marginalia.Text.Fold
/-!
# What announces a diagram in a comment

A comment announces its diagram by the word `mermaid` in any case, with an optional `@`
before it and an optional colon after it.  Where the word may stand depends on the kind
of comment:

* in a block comment it leads the comment, behind white space and stars only, or carries
  an `@`, or leads a later line of the comment, behind white space and at most one star;
* in a docstring it ends its line.

The functions here return what follows the marker, without the white space that belongs
to it, and so decide in one pass whether there is one.
-/
namespace Marginalia

/-- How the body of a comment announces a diagram. -/
inductive Head
  | block
  | docstring
deriving DecidableEq, Repr

namespace Marker

def word : Text := "mermaid".toList

/-- What follows the word and its colon, in a text that begins with the word. -/
def afterWord? (t : Text) : Option Text :=
  match Text.afterWord? word t with
  | some (':' :: rest) => some rest
  | found => found

theorem length_of_afterWord? {t rest : Text} (h : afterWord? t = some rest) :
    rest.length < t.length := by
  have hw : word.length = 7 := rfl
  unfold afterWord? at h
  split at h
  · rename_i hf
    have := Text.length_of_afterWord? hf
    cases h
    simp only [List.length_cons] at this
    omega
  · have := Text.length_of_afterWord? h
    omega

/-- What follows an `@` at the start; the text itself if there is none. -/
def dropAt : Text → Text
  | '@' :: t => t
  | t => t

theorem length_dropAt (t : Text) : (dropAt t).length ≤ t.length := by
  unfold dropAt
  split <;> simp

/-- What follows a marker that leads a block comment. -/
def leading? (body : Text) : Option Text :=
  (afterWord? (dropAt (body.dropWhile fun c => c == '*' || isBlank c))).map Text.trimStart

/-- What stands on a line of a block comment before the present character. -/
inductive Margin
  /-- Something that no marker follows, or the line is the comment's first. -/
  | taken
  /-- White space only. -/
  | clear
  /-- One star and white space. -/
  | starred
deriving DecidableEq, Repr

def Margin.next (margin : Margin) (c : Char) : Margin :=
  if c = '\n' then .clear
  else if isBlank c then margin
  else if c = '*' ∧ margin = .clear then .starred
  else .taken

/-- What follows the first marker that carries an `@` or leads a line. -/
def inBlockFrom? (margin : Margin) : Text → Option Text
  | [] => none
  | c :: t =>
    match if margin = .taken then none else afterWord? (c :: t) with
    | some rest => some (Text.trimStart rest)
    | none =>
      match if c = '@' then afterWord? t else none with
      | some rest => some (Text.trimStart rest)
      | none => inBlockFrom? (margin.next c) t

/-- What follows the first marker of a block comment that does not lead the comment. -/
def inBlock? (body : Text) : Option Text := inBlockFrom? .taken body

/-- What follows the last newline of the white space that the text begins with. -/
def afterNewlineFrom? (found : Option Text) : Text → Option Text
  | [] => found
  | c :: t =>
    if isBlank c then afterNewlineFrom? (if c = '\n' then some t else found) t else found

def inDocstring? : Text → Option Text
  | [] => none
  | c :: t =>
    match (afterWord? (c :: t)).bind (afterNewlineFrom? none) with
    | some rest => some rest
    | none => inDocstring? t

end Marker

namespace Head

/-- What follows a marker at the very start of the body.  It is looked for at every
opener. -/
def leading? : Head → Text → Option Text
  | block => Marker.leading?
  | docstring => fun _ => none

/-- What follows the first marker anywhere in the body. -/
def inside? : Head → Text → Option Text
  | block => Marker.inBlock?
  | docstring => Marker.inDocstring?

/-- What the body holds behind its marker: a leading marker goes before one inside. -/
def announced? (head : Head) (body : Text) : Option Text :=
  match head.leading? body with
  | some rest => some rest
  | none => head.inside? body

end Head

end Marginalia
