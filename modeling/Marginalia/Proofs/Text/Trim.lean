import Mathlib.Data.List.Induction
import Marginalia.Proofs.Text.Blank
import Marginalia.Proofs.Text.Lines
/-!
# Trimming several lines at once

White space at the ends of joined lines takes whole lines and, at the start, a piece of one, if no line ends with white
space by itself.  So trimming keeps a window of the lines (`trim_joinLines`), and one can say which
(`trim_joinLines_eq`).
-/
namespace Marginalia

namespace Text

/-- White space at the start of joined lines ends on the first line that is not blank. -/
theorem trimStart_joinLines_cons {line : Text} (h : ¬ ∀ c ∈ line, isBlank c) (lines : List Text) :
    trimStart (joinLines (line :: lines)) = joinLines (trimStart line :: lines) := by
  have htrim : (trimStart line).isEmpty = false := by
    refine Bool.eq_false_iff.2 fun hnil => h ?_
    obtain ⟨gap, hgap, hline⟩ := exists_trimStart line
    rw [List.isEmpty_iff.1 hnil, List.append_nil] at hline
    rwa [hline]
  have hhead := joinLines_append_head line [] lines
  have hrest := joinLines_append_head (trimStart line) [] lines
  rw [List.append_nil] at hhead hrest
  rw [hhead, hrest, trimStart_append_eq, htrim, if_neg Bool.false_ne_true]

/-- Lines of white space at the start of joined lines are trimmed. -/
theorem trimStart_joinLines_blank {blank lines : List Text} (h : ∀ line ∈ blank, ∀ c ∈ line, isBlank c)
    (hne : lines ≠ []) : trimStart (joinLines (blank ++ lines)) = trimStart (joinLines lines) := by
  induction blank with
  | nil => rfl
  | cons line blank ih =>
    have hline : ∀ c ∈ line ++ ['\n'], isBlank c := by
      intro c hc
      rcases List.mem_append.1 hc with hc | hc
      · exact h line List.mem_cons_self c hc
      · rw [List.mem_singleton.1 hc]
        decide
    rw [List.cons_append, joinLines_cons (by simp [hne]), List.append_cons, trimStart_append hline]
    exact ih fun l hl => h l (List.mem_cons_of_mem _ hl)

/-- White space at the start of joined lines takes whole lines and a piece of one. -/
theorem trimStart_joinLines : ∀ {lines : List Text}, (∀ line ∈ lines, trimEnd line = line) → trimStart (joinLines lines) ≠ [] →
    ∃ a first rest, lines = a ++ first :: rest ∧ trimStart (joinLines lines) = joinLines (trimStart first :: rest)
  | [], _, hne => absurd rfl hne
  | line :: lines, h, hne => by
    by_cases hblank : ∀ c ∈ line, isBlank c
    · -- a line of white space is empty, and its newline is white space too
      obtain rfl : line = [] := by rw [← h line List.mem_cons_self, trimEnd_eq_nil hblank]
      cases lines with
      | nil => exact absurd rfl hne
      | cons next lines =>
        have htrim : trimStart (joinLines ([] :: next :: lines)) = trimStart (joinLines (next :: lines)) := by
          rw [joinLines_cons (List.cons_ne_nil _ _)]
          rfl
        rw [htrim] at hne ⊢
        obtain ⟨a, first, rest, hlines, heq⟩ := trimStart_joinLines (fun l hl => h l (List.mem_cons_of_mem _ hl)) hne
        exact ⟨[] :: a, first, rest, by rw [hlines, List.cons_append], heq⟩
    · exact ⟨[], line, lines, rfl, trimStart_joinLines_cons hblank lines⟩

/-- Empty lines at the end of joined lines are trimmed. -/
theorem trimEnd_joinLines_empty {lines blank : List Text} (hne : lines ≠ []) (hblank : ∀ line ∈ blank, line = []) :
    trimEnd (joinLines (lines ++ blank)) = trimEnd (joinLines lines) := by
  induction blank generalizing lines with
  | nil => rw [List.append_nil]
  | cons line blank ih =>
    obtain ⟨rfl, hrest⟩ := List.forall_mem_cons.1 hblank
    rw [List.append_cons, ih (by simp) hrest, joinLines_append hne (List.cons_ne_nil _ _), joinLines_singleton,
      trimEnd_concat (by decide)]

theorem trimEnd_joinLines_concat {lines : List Text} {line : Text} (hne : line ≠ []) (htrim : trimEnd line = line) :
    trimEnd (joinLines (lines ++ [line])) = joinLines (lines ++ [line]) := by
  rw [trimEnd_eq_self_iff, getLast?_joinLines hne]
  exact trimEnd_eq_self_iff.1 htrim

/-- White space at the end of joined lines takes whole lines. -/
theorem trimEnd_joinLines {lines : List Text} (h : ∀ line ∈ lines, trimEnd line = line)
    (hne : trimEnd (joinLines lines) ≠ []) :
    ∃ init b, lines = init ++ b ∧ init ≠ [] ∧ trimEnd (joinLines lines) = joinLines init := by
  induction lines using List.reverseRecOn with
  | nil => exact absurd rfl hne
  | append_singleton init last ih =>
    by_cases hlast : last = []
    · -- the last line is empty, and its newline is white space
      by_cases hinit : init = []
      · rw [hlast, hinit] at hne
        exact absurd rfl hne
      · rw [trimEnd_joinLines_empty hinit (List.forall_mem_singleton.2 hlast)] at hne ⊢
        obtain ⟨a, b, hab, ha, heq⟩ := ih (fun l hl => h l (List.mem_append_left _ hl)) hne
        exact ⟨a, b ++ [last], by rw [hab, List.append_assoc], ha, heq⟩
    · exact ⟨init ++ [last], [], (List.append_nil _).symm, by simp, trimEnd_joinLines_concat hlast (h last (by simp))⟩

/-- **Trimmed joined lines are some of the lines, the first without the white space before it.** -/
theorem trim_joinLines {lines : List Text} (h : ∀ line ∈ lines, trimEnd line = line) (hne : trim (joinLines lines) ≠ []) :
    ∃ a first rest b, lines = a ++ first :: (rest ++ b) ∧ trim (joinLines lines) = joinLines (trimStart first :: rest) := by
  have hstart : trimStart (joinLines lines) ≠ [] := by
    intro hnil
    rw [trim, hnil] at hne
    exact hne rfl
  obtain ⟨a, first, rest, hlines, heq⟩ := trimStart_joinLines h hstart
  have hall : ∀ line ∈ trimStart first :: rest, trimEnd line = line := by
    intro line hline
    rcases List.mem_cons.1 hline with rfl | hline
    · exact trimEnd_eq_self_of_suffix (h first (by rw [hlines]; simp)) (List.dropWhile_suffix _)
    · exact h line (by rw [hlines]; simp [hline])
  rw [trim, heq] at hne ⊢
  obtain ⟨init, b, hinit, hinit', hend⟩ := trimEnd_joinLines hall hne
  cases init with
  | nil => exact absurd rfl hinit'
  | cons x init =>
    obtain ⟨rfl, rfl⟩ := List.cons.inj hinit
    exact ⟨a, first, init, b, hlines, hend⟩

/-- **Trimmed joined lines go from the first to the last that is not blank**, if the first of all is not. -/
theorem trim_joinLines_eq {first : Text} {kept blank : List Text} (hfirst : ¬ ∀ c ∈ first, isBlank c)
    (htrim : ∀ line ∈ first :: kept, trimEnd line = line) (hlast : ∀ line ∈ kept.getLast?, line ≠ [])
    (hblank : ∀ line ∈ blank, line = []) :
    trim (joinLines (first :: (kept ++ blank))) = joinLines (trimStart first :: kept) := by
  rw [trim, trimStart_joinLines_cons hfirst, ← List.cons_append, trimEnd_joinLines_empty (List.cons_ne_nil _ _) hblank]
  rcases List.eq_nil_or_concat kept with rfl | ⟨init, last, rfl⟩
  · rw [joinLines_singleton]
    exact trimEnd_eq_self_of_suffix (htrim first List.mem_cons_self) (List.dropWhile_suffix _)
  · rw [List.concat_eq_append] at hlast htrim ⊢
    rw [← List.cons_append]
    exact trimEnd_joinLines_concat (hlast last (by simp)) (htrim last (by simp))

end Text

end Marginalia
