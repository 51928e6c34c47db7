import Marginalia.Text.Basic
/-!
# White space

A character is blank when Unicode gives it the property `White_Space`.  That is the
one notion of white space of this library: the trimming of lines and codes, the gaps
inside markers and headings, and the measuring of indentation all use it.
-/
namespace Marginalia

/-- The characters with the Unicode property `White_Space`. -/
def isBlank (c : Char) : Bool :=
  let n := c.toNat
  (0x09 ≤ n && n ≤ 0x0D) || n == 0x20 || n == 0x85 || n == 0xA0 || n == 0x1680 ||
    (0x2000 ≤ n && n ≤ 0x200A) || n == 0x2028 || n == 0x2029 || n == 0x202F ||
    n == 0x205F || n == 0x3000

namespace Text

def trimStart (t : Text) : Text := t.dropWhile isBlank

def trimEnd (t : Text) : Text :=
  t.foldr (fun c rest => if rest.isEmpty && isBlank c then [] else c :: rest) []

def trim (t : Text) : Text := trimEnd (trimStart t)

theorem trimStart_trimStart (t : Text) : trimStart (trimStart t) = trimStart t := by
  induction t with
  | nil => rfl
  | cons c t ih =>
    cases hb : isBlank c with
    | true => simpa [trimStart, hb] using ih
    | false => simp [trimStart, hb]

theorem trimEnd_cons (c : Char) (t : Text) :
    trimEnd (c :: t) = if (trimEnd t).isEmpty && isBlank c then [] else c :: trimEnd t :=
  rfl

theorem trimEnd_trimEnd (t : Text) : trimEnd (trimEnd t) = trimEnd t := by
  induction t with
  | nil => rfl
  | cons c t ih =>
    rw [trimEnd_cons]
    split
    · rfl
    · rename_i h
      rw [trimEnd_cons, ih, if_neg h]

theorem trimStart_trimEnd {t : Text} (h : trimStart t = t) : trimStart (trimEnd t) = trimEnd t := by
  cases t with
  | nil => rfl
  | cons c t =>
    have hc : isBlank c = false := by
      cases hb : isBlank c with
      | false => rfl
      | true =>
        have hle : (t.dropWhile isBlank).length ≤ t.length := (List.dropWhile_sublist _).length_le
        have hlen := congrArg List.length h
        simp [trimStart, hb] at hlen
        omega
    simp [trimEnd_cons, hc, trimStart]

theorem trim_trim (t : Text) : trim (trim t) = trim t := by
  show trimEnd (trimStart (trimEnd (trimStart t))) = _
  rw [trimStart_trimEnd (trimStart_trimStart t), trimEnd_trimEnd]
  rfl

/-- A text of white space only; the empty text is one. -/
def isAllBlank (t : Text) : Bool := t.all isBlank

def indentation (t : Text) : Nat := (t.takeWhile isBlank).length

end Text

end Marginalia
