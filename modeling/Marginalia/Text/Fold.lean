import Marginalia.Text.Basic
/-!
# Words in any case

Keywords are recognized regardless of case, up to Unicode's simple case folding.  Only
ASCII letters and characters without case occur in keywords, so the folding is given
as far as it reaches an ASCII letter: the capitals `A` to `Z`, the long s `ſ` and the
Kelvin sign `K`.  Every other character folds to itself or away from ASCII, and never
meets a keyword's letter.
-/
namespace Marginalia

/-- Simple case folding, as far as it yields ASCII letters. -/
def foldCase (c : Char) : Char :=
  if c = '\u017F' then 's' else if c = '\u212A' then 'k' else c.toLower

namespace Text

def afterWord? : (word t : Text) → Option Text
  | [], t => some t
  | _ :: _, [] => none
  | w :: word, c :: t => if foldCase c == foldCase w then afterWord? word t else none

/-- A text that begins with a word is as much longer than its rest as the word is long. -/
theorem length_of_afterWord? : ∀ {word t rest : Text}, afterWord? word t = some rest →
    t.length = word.length + rest.length
  | [], t, rest, h => by simp_all [afterWord?]
  | _ :: _, [], rest, h => by simp [afterWord?] at h
  | w :: word, c :: t, rest, h => by
    unfold afterWord? at h
    split at h
    · have := length_of_afterWord? h
      simp only [List.length_cons]
      omega
    · simp at h

def beginsWithWord (word t : Text) : Bool := (afterWord? word t).isSome

end Text

end Marginalia
