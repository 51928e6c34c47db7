import Mathlib.Data.List.Chain
import Mathlib.Order.Bounds.Basic
import Marginalia.Proofs.Tidiness
/-!
# The window of lines that holds a diagram

What is extracted from the lines of a body can be said in two more ways.  One is by the numbers of the lines: the window
goes from the least line that starts a diagram to the least line behind it at which it stops.  The other is a single
pass over the lines that remembers whether the diagram has started and how many blank lines stand last (`Reading`).
After each step of the pass the blank lines it counts are those that the line kept last accounts for (`Reading.After`),
so a run of it keeps just the lines that continue the diagram (`Reading.finish_after`).

All three agree on all lists of lines (`extract_eq_window`), and neither the lines above the window nor those below the
one that stops it have a say in what is extracted.
-/
namespace Marginalia

open Text (joinLines)

namespace Diagram

/-! ## By the numbers of the lines -/

/-- Line `k` starts a diagram. -/
def StartsAt (lines : List Text) (k : Nat) : Prop := ∃ line ∈ lines[k]?, isStart line.trim = true

/-- A diagram above line `k` stops there: the line is a heading, or the second of two blank ones. -/
def StopsAt (lines : List Text) (k : Nat) : Prop :=
  ∃ line ∈ lines[k]?, isHeading line.trim = true ∨
    (line.isAllBlank = true ∧ ∃ previous ∈ lines[k - 1]?, previous.isAllBlank = true)

/-- What continues a diagram goes up to the first line past its end. -/
theorem exists_continuation : ∀ (first : Text) (rest : List Text), ∃ kept after, rest = kept ++ after ∧
    (first :: kept).IsChain (fun a b => isPast a b = false) ∧
    ∀ stop ∈ after.head?, isPast ((first :: kept).getLast (List.cons_ne_nil _ _)) stop = true
  | first, [] => ⟨[], [], rfl, List.isChain_singleton _, by simp⟩
  | first, next :: rest => by
    cases hpast : isPast first next with
    | true => exact ⟨[], next :: rest, rfl, List.isChain_singleton _, by simpa using hpast⟩
    | false =>
      obtain ⟨kept, after, rfl, hchain, hstop⟩ := exists_continuation next rest
      exact ⟨next :: kept, after, rfl, List.isChain_cons_cons.2 ⟨hpast, hchain⟩, by simpa using hstop⟩

theorem stopsAt_succ_iff {lines : List Text} {k : Nat} {previous line : Text} (hprevious : lines[k]? = some previous)
    (hline : lines[k + 1]? = some line) : StopsAt lines (k + 1) ↔ isPast previous line = true := by
  rw [StopsAt, hline, Nat.add_sub_cancel, hprevious, isPast, Bool.or_eq_true, Bool.and_eq_true]
  simp [and_comm]

theorem isLeast_start (hbefore : ∀ line ∈ before, isStart line.trim = false) (hfirst : isStart first.trim = true)
    (rest : List Text) : IsLeast {k | StartsAt (before ++ first :: rest) k} before.length := by
  refine ⟨⟨first, by simp, hfirst⟩, fun k hk => Nat.le_of_not_lt fun hlt => ?_⟩
  obtain ⟨line, hline, hstart⟩ := hk
  rw [List.getElem?_append_left hlt] at hline
  rw [hbefore line (List.mem_of_getElem? hline)] at hstart
  cases hstart

theorem isLeast_stop {before kept after : List Text} {first : Text}
    (hkept : (first :: kept).IsChain fun a b => isPast a b = false)
    (hafter : ∀ stop ∈ after.head?, isPast ((first :: kept).getLast (List.cons_ne_nil _ _)) stop = true) :
    IsLeast {k | before.length < k ∧ (StopsAt (before ++ first :: (kept ++ after)) k ∨
      k = (before ++ first :: (kept ++ after)).length)} (before.length + kept.length + 1) := by
  have hget : ∀ m, (before ++ first :: (kept ++ after))[before.length + m]? = ((first :: kept) ++ after)[m]? := fun m => by
    rw [List.getElem?_append_right (Nat.le_add_right _ _), Nat.add_sub_cancel_left, List.cons_append]
  constructor
  · refine ⟨by omega, ?_⟩
    cases after with
    | nil =>
      right
      simp only [List.length_append, List.length_cons, List.append_nil]
      omega
    | cons stop later =>
      left
      have hlast : ((first :: kept) ++ stop :: later)[kept.length]? =
          some ((first :: kept).getLast (List.cons_ne_nil _ _)) := by
        rw [List.getElem?_append_left (by simp), List.getLast_eq_getElem]
        simp
      refine (stopsAt_succ_iff ((hget _).trans hlast) ?_).2 (hafter stop rfl)
      rw [Nat.add_assoc, hget]
      simp
  · rintro k ⟨hlt, hk⟩
    refine Nat.le_of_not_lt fun hgt => ?_
    -- a line of the window before `k` would be the last one before its end
    obtain ⟨m, rfl⟩ : ∃ m, k = before.length + m + 1 := ⟨k - before.length - 1, by omega⟩
    have hm : m + 1 < (first :: kept).length := by
      rw [List.length_cons]
      omega
    have hpast := List.isChain_iff_getElem.1 hkept m hm
    have hprevious : (before ++ first :: (kept ++ after))[before.length + m]? = some (first :: kept)[m] := by
      rw [hget, List.getElem?_append_left (by omega), List.getElem?_eq_getElem]
    have hline : (before ++ first :: (kept ++ after))[before.length + m + 1]? = some (first :: kept)[m + 1] := by
      rw [Nat.add_assoc, hget, List.getElem?_append_left hm, List.getElem?_eq_getElem]
    rcases hk with hstop | hlength
    · rw [stopsAt_succ_iff hprevious hline, hpast] at hstop
      cases hstop
    · simp only [List.length_append, List.length_cons] at hlength
      omega

/-! ## In a single pass -/

/-- What a pass over the lines of a body remembers. -/
structure Reading where
  started : Bool
  /-- How many blank lines stand last among those kept. -/
  blanks : Nat
  kept : List Text

namespace Reading

def start : Reading := ⟨false, 0, []⟩

/-- The reading behind one more line; none if the diagram stops at it. -/
def next? (r : Reading) (line : Text) : Option Reading :=
  if r.started then
    if isHeading line.trim then none
    else if line.isAllBlank then
      if 2 ≤ r.blanks + 1 then none else some { r with blanks := r.blanks + 1, kept := r.kept ++ [line] }
    else some { r with blanks := 0, kept := r.kept ++ [line] }
  else if isStart line.trim then some { r with started := true, kept := r.kept ++ [line] }
  else some r

def finish (r : Reading) : List Text → Reading
  | [] => r
  | line :: rest =>
    match r.next? line with
    | none => r
    | some next => next.finish rest

/-- The markup that the pass ends with: all the lines if no diagram has started. -/
def markup (lines : List Text) : Text :=
  let r := start.finish lines
  if r.started then (joinLines r.kept).trim else (joinLines lines).trim

/-- The diagram has started, `previous` is the line kept last, and the blank lines counted are those it accounts for. -/
structure After (r : Reading) (previous : Text) : Prop where
  started : r.started = true
  blanks : r.blanks = if previous.isAllBlank then 1 else 0

variable {r : Reading} {previous : Text}

/-- **One step of the pass** keeps the line, unless it lies past the end. -/
theorem next?_after (h : r.After previous) (line : Text) :
    if isPast previous line then r.next? line = none
    else ∃ next, r.next? line = some next ∧ next.After line ∧ next.kept = r.kept ++ [line] := by
  rw [isPast, next?, if_pos h.started, h.blanks]
  cases hheading : isHeading line.trim with
  | true => simp
  | false =>
    cases hline : line.isAllBlank with
    | false => simpa using ⟨h.started, by simp [hline]⟩
    | true =>
      cases hprevious : previous.isAllBlank with
      | true => simp
      | false => simpa using ⟨h.started, by simp [hline]⟩

/-- **A run of the pass** keeps the lines that continue the diagram. -/
theorem finish_after (h : r.After previous) (lines : List Text) :
    (r.finish lines).started = true ∧ (r.finish lines).kept = r.kept ++ continuation previous lines := by
  induction lines generalizing r previous with
  | nil => exact ⟨h.started, (List.append_nil _).symm⟩
  | cons line rest ih =>
    have hstep := next?_after h line
    rw [finish, continuation_cons]
    split at hstep
    · rename_i hpast
      rw [hstep, if_pos hpast]
      exact ⟨h.started, (List.append_nil _).symm⟩
    · rename_i hpast
      obtain ⟨next, hnext, hafter, hkept⟩ := hstep
      obtain ⟨hstarted, hall⟩ := ih hafter
      rw [hnext, if_neg hpast]
      exact ⟨hstarted, by rw [hall, hkept, List.append_assoc, List.singleton_append]⟩

/-- Lines that start no diagram leave the pass where it was. -/
theorem finish_prose {before : List Text} (hbefore : ∀ line ∈ before, isStart line.trim = false) (rest : List Text) :
    start.finish (before ++ rest) = start.finish rest := by
  induction before with
  | nil => rfl
  | cons line before ih =>
    obtain ⟨hline, hbefore⟩ := List.forall_mem_cons.1 hbefore
    have hnext : start.next? line = some start := by
      rw [next?, if_neg (by simp [start]), if_neg (by simp [hline])]
    rw [List.cons_append, finish, hnext]
    exact ih hbefore

/-- **The pass ends with what is extracted.** -/
theorem markup_eq_extract (lines : List Text) : markup lines = extract lines := by
  rcases prose_or_started lines with hprose | ⟨before, first, rest, rfl, hbefore, hfirst⟩
  · have hfinish := finish_prose hprose []
    rw [List.append_nil] at hfinish
    rw [extract_of_prose hprose, markup, hfinish]
    rfl
  · have hnotBlank : first.isAllBlank = false :=
      Bool.eq_false_iff.2 fun hblank => not_all_blank_of_isStart hfirst (List.all_eq_true.1 hblank)
    have hnext : start.next? first = some ⟨true, 0, [first]⟩ := by
      rw [next?, if_neg (by simp [start]), if_pos hfirst]
      rfl
    have hafter : After ⟨true, 0, [first]⟩ first := ⟨rfl, by simp [hnotBlank]⟩
    obtain ⟨hstarted, hkept⟩ := finish_after hafter rest
    rw [extract_of_start hbefore hfirst, markup, finish_prose hbefore, finish, hnext]
    dsimp only
    rw [if_pos hstarted, hkept, List.singleton_append]

end Reading

/-! ## All three -/

/-- **What is extracted from lines.**  It is what a single pass over them ends with.  If none of them starts a diagram,
it is all of them.  Otherwise it is the lines from the least start `i` up to the least `j` behind it at which the
diagram stops, or to the end; and other lines above `i` that start no diagram, and other lines below `j`, make no
difference. -/
theorem extract_eq_window (lines : List Text) : Reading.markup lines = extract lines ∧
    ((∀ line ∈ lines, isStart line.trim = false) ∧ extract lines = (joinLines lines).trim ∨
      ∃ i j, IsLeast {k | StartsAt lines k} i ∧ IsLeast {k | i < k ∧ (StopsAt lines k ∨ k = lines.length)} j ∧
        extract lines = (joinLines ((lines.take j).drop i)).trim ∧
        ∀ before after, (∀ line ∈ before, isStart line.trim = false) → (j < lines.length ∨ after = []) →
          extract (before ++ ((lines.take (j + 1)).drop i ++ after)) = extract lines) := by
  refine ⟨Reading.markup_eq_extract lines, ?_⟩
  rcases prose_or_started lines with hprose | ⟨above, first, rest, rfl, habove, hfirst⟩
  · exact Or.inl ⟨hprose, extract_of_prose hprose⟩
  · right
    obtain ⟨kept, below, rfl, hkept, hbelow⟩ := exists_continuation first rest
    have hextract : extract (above ++ first :: (kept ++ below)) = (joinLines (first :: kept)).trim := by
      rw [extract_of_start habove hfirst, continuation_append hkept hbelow]
    have hwindow : ∀ n, ((above ++ first :: (kept ++ below)).take (above.length + kept.length + 1 + n)).drop above.length =
        first :: (kept ++ below.take n) := fun n => by
      rw [List.drop_take, List.drop_left, ← List.cons_append, ← List.cons_append, List.take_append,
        List.take_of_length_le (by simp; omega)]
      congr 2
      simp only [List.length_cons]
      omega
    refine ⟨above.length, above.length + kept.length + 1, isLeast_start habove hfirst _, isLeast_stop hkept hbelow, ?_,
      fun before after hbefore hafter => ?_⟩
    · have := hwindow 0
      rw [Nat.add_zero, List.take_zero, List.append_nil] at this
      rw [hextract, this]
    · rw [hextract, hwindow, List.cons_append, List.append_assoc, extract_of_start hbefore hfirst,
        continuation_append hkept]
      intro stop hstop
      cases below with
      | nil =>
        rcases hafter with hlt | rfl
        · simp only [List.length_append, List.length_cons, List.append_nil] at hlt
          omega
        · cases hstop
      | cons line below => exact hbelow stop hstop

end Diagram

end Marginalia
