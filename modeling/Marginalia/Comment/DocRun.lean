import Marginalia.Comment.Delimited
/-!
# Runs of documentation lines

A documentation line begins with `//!`, possibly indented by spaces and tabs.  A diagram
is announced by `//!` and a marker that fills the rest of its line, and it stands in the
documentation lines directly below, as many as follow one another.  The comment starts
at the marker's `//!` and stops behind its last line, whose newline belongs to it.
-/
namespace Marginalia

namespace DocRun

def sign : Text := "//!".toList

def isGap (c : Char) : Bool := c == ' ' || c == '\t'

/-- What follows the line of a text that begins with a marker line. -/
def afterMarkerLine? (t : Text) : Option Text :=
  if sign.isPrefixOf t then
    match Marker.afterWord? (Marker.dropAt ((t.drop sign.length).dropWhile isGap)) with
    | some rest =>
      match rest.dropWhile fun c => isGap c || c == '\r' with
      | '\n' :: below => some below
      | _ => none
    | none => none
  else none

theorem length_of_afterMarkerLine? {t below : Text} (h : afterMarkerLine? t = some below) :
    below.length < t.length := by
  unfold afterMarkerLine? at h
  split at h
  · split at h
    · rename_i rest hw
      split at h
      · rename_i hd
        cases h
        have hr := (List.dropWhile_sublist (l := rest) fun c => isGap c || c == '\r').length_le
        have hg := (List.dropWhile_sublist (l := t.drop sign.length) isGap).length_le
        have ha := Marker.length_dropAt ((t.drop sign.length).dropWhile isGap)
        have hm := Marker.length_of_afterWord? hw
        rw [hd] at hr
        simp only [List.length_cons, List.length_drop] at hr hg
        omega
      · simp at h
    · simp at h
  · simp at h

def beginsLine (t : Text) : Bool := sign.isPrefixOf (t.dropWhile isGap)

/-- The documentation lines that the text begins with, each with its newline, behind
those already `found` in reverse; and what follows them. -/
def linesFrom (found : List Text) (t : Text) : List Text × Text :=
  if beginsLine t then
    match h : t.dropWhile (· != '\n') with
    | [] => ((t :: found).reverse, [])
    | newline :: rest =>
      have : rest.length < t.length := by
        have := (List.dropWhile_sublist (l := t) (· != '\n')).length_le
        rw [h] at this
        exact this
      linesFrom ((t.takeWhile (· != '\n') ++ [newline]) :: found) rest
  else (found.reverse, t)
termination_by t.length

theorem length_of_linesFrom (found : List Text) (t : Text) :
    (linesFrom found t).2.length ≤ t.length := by
  fun_induction linesFrom found t with
  | case1 => simp
  | case2 found t hb newline rest h hlt ih => omega
  | case3 => simp

/-- The run of documentation lines that the text begins with, and what follows it. -/
def run (t : Text) : Text × Text :=
  let (lines, rest) := linesFrom [] t
  (lines.flatten, rest)

theorem length_of_run (t : Text) : (run t).2.length ≤ t.length := length_of_linesFrom [] t

/-- The loop of `scan`, at offset `pos` and with the candidates so far in reverse. -/
def scanFrom (pos : Nat) (found : List Candidate) : Text → List Candidate
  | [] => found.reverse
  | c :: t =>
    match h : afterMarkerLine? (c :: t) with
    | some below =>
      if (run below).1.isEmpty then scanFrom (pos + c.utf8Size) found t
      else
        have : (run below).2.length < t.length + 1 :=
          Nat.lt_of_le_of_lt (length_of_run below) (length_of_afterMarkerLine? h)
        let line := (c :: t).takeWhile (· != '\n')
        let stop := pos + Text.byteLength line + 1 + (run below).1.byteLength
        scanFrom stop (⟨pos, stop, (run below).1⟩ :: found) (run below).2
    | none => scanFrom (pos + c.utf8Size) found t
termination_by t => t.length

/-- The runs of a document that a marker line announces, from left to right. -/
def scan (t : Text) : List Candidate := scanFrom 0 [] t

end DocRun

end Marginalia
