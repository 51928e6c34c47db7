import Mathlib.Data.List.TakeWhile
import Marginalia.Text.Lines
import Marginalia.Proofs.Text.Blank
/-!
# The common indentation of lines

A margin before a line is one before all but an empty one (`indent`), as white space at the end of a line is trimmed.
The common indentation is the least one of a line that is not blank (`commonIndentation_eq_iff`): more lines can only
make it less (`commonIndentation_le_of_subset`), and what moves all of them equally moves it along
(`commonIndentation_map`).  Taking it off lines without white space at their ends takes white space only
(`exists_drop_commonIndentation`), and takes a margin off with it (`dedent_map_indent`).
-/
namespace Marginalia

namespace Text

theorem isAllBlank_append {gap : Text} (hgap : ∀ c ∈ gap, isBlank c) (line : Text) :
    isAllBlank (gap ++ line) = isAllBlank line := by
  rw [isAllBlank, isAllBlank, List.all_append, List.all_eq_true.2 hgap, Bool.true_and]

theorem isAllBlank_trimEnd (line : Text) : isAllBlank (trimEnd line) = isAllBlank line := by
  obtain ⟨gap, hgap, hline⟩ := exists_trimEnd line
  conv => rhs; rw [hline]
  rw [isAllBlank, isAllBlank, List.all_append, List.all_eq_true.2 hgap, Bool.and_true]

theorem isAllBlank_trimStart (t : Text) : isAllBlank (trimStart t) = isAllBlank t := by
  obtain ⟨gap, hgap, ht⟩ := exists_trimStart t
  conv => rhs; rw [ht]
  rw [isAllBlank_append hgap]

theorem trimEnd_of_isAllBlank {line : Text} (h : isAllBlank line = true) : trimEnd line = [] :=
  trimEnd_eq_nil (List.all_eq_true.1 h)

/-! ## The indentation of a line -/

theorem indentation_append {gap : Text} (hgap : ∀ c ∈ gap, isBlank c) (line : Text) :
    indentation (gap ++ line) = gap.length + indentation line := by
  rw [indentation, List.takeWhile_append_of_pos hgap, List.length_append, indentation]

theorem indentation_lt_length {line : Text} (h : isAllBlank line = false) : indentation line < line.length := by
  have hsplit := congrArg List.length (List.takeWhile_append_dropWhile (p := isBlank) (l := line))
  have hrest : line.dropWhile isBlank ≠ [] := fun hnil => by
    rw [isAllBlank, List.all_eq_true.2 (List.dropWhile_eq_nil_iff.1 hnil)] at h
    cases h
  have := List.length_pos_iff.2 hrest
  rw [List.length_append] at hsplit
  rw [indentation]
  omega

theorem isBlank_take {line : Text} {n : Nat} (h : n ≤ indentation line) : ∀ c ∈ line.take n, isBlank c := by
  have htake : line.take n <+: line.takeWhile isBlank :=
    List.prefix_of_prefix_length_le (List.take_prefix _ _) (List.takeWhile_prefix _)
      (Nat.le_trans (List.length_take_le _ _) h)
  exact fun c hc => List.all_eq_true.1 List.all_takeWhile c (htake.subset hc)

/-- White space at its end is none of the indentation of a line that is not blank. -/
theorem indentation_trimEnd {line : Text} (h : isAllBlank line = false) :
    indentation (trimEnd line) = indentation line := by
  obtain ⟨gap, -, hline⟩ := exists_trimEnd line
  have hlt := indentation_lt_length ((isAllBlank_trimEnd line).trans h)
  have hshort : (trimEnd line).takeWhile isBlank ≠ trimEnd line := fun heq => by
    rw [indentation, heq] at hlt
    exact absurd hlt (Nat.lt_irrefl _)
  conv => rhs; rw [hline]
  rw [indentation, indentation, List.takeWhile_append, if_neg fun hlength => hshort ?_]
  exact (List.takeWhile_prefix isBlank).eq_of_length hlength

/-! ## A line behind a margin -/

/-- A line with a margin before it; an empty line has none. -/
def indent (w line : Text) : Text := if line = [] then [] else w ++ line

theorem indent_eq_or (w line : Text) : indent w line = line ∨ indent w line = w ++ line := by
  unfold indent
  split
  · rename_i hnil
    exact Or.inl hnil.symm
  · exact Or.inr rfl

theorem indent_nil : indent [] = id := by
  funext line
  rcases indent_eq_or [] line with h | h <;> exact h

theorem indent_eq_nil_iff (w line : Text) : indent w line = [] ↔ line = [] := by
  unfold indent
  split <;> simp_all

section Margin

variable {w : Text} (hw : ∀ c ∈ w, isBlank c)
include hw

theorem trimStart_indent (line : Text) : trimStart (indent w line) = trimStart line := by
  rcases indent_eq_or w line with h | h
  · rw [h]
  · rw [h, trimStart_append hw]

theorem trim_indent (line : Text) : trim (indent w line) = trim line := by
  rw [trim, trim, trimStart_indent hw]

theorem isAllBlank_indent (line : Text) : isAllBlank (indent w line) = isAllBlank line := by
  rcases indent_eq_or w line with h | h
  · rw [h]
  · rw [h, isAllBlank_append hw]

theorem trimEnd_indented (line : Text) : trimEnd (w ++ line) = indent w (trimEnd line) := by
  rw [trimEnd_append, trimEnd_eq_nil hw, indent]
  cases trimEnd line <;> rfl

theorem trimEnd_indent {line : Text} (h : trimEnd line = line) : trimEnd (indent w line) = indent w line := by
  by_cases hnil : line = []
  · rw [hnil]
    rfl
  · rw [indent, if_neg hnil, trimEnd_indented hw, h, indent, if_neg hnil]

end Margin

/-! ## The least one -/

theorem commonIndentation_le {lines : List Text} {line : Text} (hin : line ∈ lines) (hblank : line.isAllBlank = false) :
    commonIndentation lines ≤ indentation line := by
  have hmem : indentation line ∈ (lines.filter fun line => !line.isAllBlank).map indentation :=
    List.mem_map_of_mem (List.mem_filter.2 ⟨hin, by simp [hblank]⟩)
  rw [commonIndentation]
  cases hmin : ((lines.filter fun line => !line.isAllBlank).map indentation).min? with
  | none => exact Nat.zero_le _
  | some least => exact (List.min?_eq_some_iff.1 hmin).2 _ hmem

variable {lines : List Text} (hsome : ∃ line ∈ lines, line.isAllBlank = false)
include hsome

theorem exists_indentation_eq : ∃ line ∈ lines, line.isAllBlank = false ∧ indentation line = commonIndentation lines := by
  obtain ⟨line, hin, hblank⟩ := hsome
  rw [commonIndentation]
  cases hmin : ((lines.filter fun line => !line.isAllBlank).map indentation).min? with
  | none =>
    rw [List.min?_eq_none_iff, List.map_eq_nil_iff, List.filter_eq_nil_iff] at hmin
    exact absurd (by simp [hblank]) (hmin line hin)
  | some least =>
    obtain ⟨line, hin, hleast⟩ := List.mem_map.1 (List.min?_eq_some_iff.1 hmin).1
    obtain ⟨hin, hblank⟩ := List.mem_filter.1 hin
    exact ⟨line, hin, by simpa using hblank, hleast⟩

theorem commonIndentation_eq_iff {n : Nat} : commonIndentation lines = n ↔
    (∃ line ∈ lines, line.isAllBlank = false ∧ indentation line = n) ∧
      ∀ line ∈ lines, line.isAllBlank = false → n ≤ indentation line := by
  constructor
  · rintro rfl
    exact ⟨exists_indentation_eq hsome, fun line => commonIndentation_le⟩
  · rintro ⟨⟨line, hin, hblank, rfl⟩, hleast⟩
    obtain ⟨least, hin', hblank', hleast'⟩ := exists_indentation_eq hsome
    exact Nat.le_antisymm (commonIndentation_le hin hblank) (hleast' ▸ hleast least hin' hblank')

theorem commonIndentation_le_of_subset {all : List Text} (h : lines ⊆ all) :
    commonIndentation all ≤ commonIndentation lines := by
  obtain ⟨line, hin, hblank, hline⟩ := exists_indentation_eq hsome
  exact hline ▸ commonIndentation_le (h hin) hblank

/-- **What moves all lines equally moves their common indentation.** -/
theorem commonIndentation_map {f : Text → Text} {n : Nat} (hblank : ∀ line ∈ lines, isAllBlank (f line) = isAllBlank line)
    (hmove : ∀ line ∈ lines, line.isAllBlank = false → indentation (f line) = n + indentation line) :
    commonIndentation (lines.map f) = n + commonIndentation lines := by
  obtain ⟨line, hin, hline, hleast⟩ := exists_indentation_eq hsome
  have hline' : isAllBlank (f line) = false := (hblank line hin).trans hline
  refine (commonIndentation_eq_iff ⟨f line, List.mem_map_of_mem hin, hline'⟩).2
    ⟨⟨f line, List.mem_map_of_mem hin, hline', by rw [hmove line hin hline, hleast]⟩, fun moved hmoved hnot => ?_⟩
  obtain ⟨source, hsource, rfl⟩ := List.mem_map.1 hmoved
  have hnot' : source.isAllBlank = false := (hblank source hsource).symm.trans hnot
  rw [hmove source hsource hnot']
  exact Nat.add_le_add_left (commonIndentation_le hsource hnot') n

theorem commonIndentation_map_trimEnd : commonIndentation (lines.map trimEnd) = commonIndentation lines := by
  have := commonIndentation_map hsome (n := 0) (fun line _ => isAllBlank_trimEnd line) fun line _ hline => by
    rw [indentation_trimEnd hline, Nat.zero_add]
  rwa [Nat.zero_add] at this

/-! ## Taking it off -/

omit hsome

/-- **Removing the common indentation removes white space only**, if no line ends with white space. -/
theorem exists_drop_commonIndentation {line : Text} (hin : line ∈ lines) (htrim : trimEnd line = line) :
    ∃ gap, (∀ c ∈ gap, isBlank c) ∧ line = gap ++ line.drop (commonIndentation lines) := by
  refine ⟨line.take (commonIndentation lines), ?_, (List.take_append_drop _ _).symm⟩
  cases hblank : line.isAllBlank with
  | true =>
    have hnil : line = [] := by rw [← htrim, trimEnd_of_isAllBlank hblank]
    simp [hnil]
  | false => exact isBlank_take (commonIndentation_le hin hblank)

theorem commonIndentation_eq_zero {c : Char} {rest : Text} (hin : c :: rest ∈ lines) (hc : isBlank c = false) :
    commonIndentation lines = 0 := by
  have hle := commonIndentation_le hin (by simp [isAllBlank, hc])
  rwa [indentation, List.takeWhile_cons_of_neg (by simp [hc]), List.length_nil, Nat.le_zero] at hle

theorem dedent_eq_self (h : commonIndentation lines = 0) : dedent lines = lines := by
  rw [dedent, h]
  exact List.map_id' lines

/-- Nothing is taken off lines the first of which is not indented. -/
theorem dedent_flush {first : Text} (hfirst : trimStart first = first) (hne : first ≠ []) (rest : List Text) :
    dedent (first :: rest) = first :: rest := by
  obtain ⟨c, t, rfl⟩ := List.exists_cons_of_ne_nil hne
  have hc : isBlank c = false := by
    have := head?_trimStart (c :: t)
    rw [hfirst] at this
    simpa using this
  exact dedent_eq_self (commonIndentation_eq_zero List.mem_cons_self hc)

/-- **A margin comes off with the common indentation**, where blank lines are empty and have none. -/
theorem dedent_map_indent {w : Text} (hw : ∀ c ∈ w, isBlank c) (htrim : ∀ line ∈ lines, trimEnd line = line) :
    dedent (lines.map (indent w)) = dedent lines := by
  by_cases hsome : ∃ line ∈ lines, line.isAllBlank = false
  · have hindent : ∀ line ∈ lines, line.isAllBlank = false → indentation (indent w line) = w.length + indentation line :=
      fun line _ hline => by
        have hne : line ≠ [] := by
          rintro rfl
          cases hline
        rw [indent, if_neg hne, indentation_append hw]
    rw [dedent, dedent, commonIndentation_map hsome (fun line _ => isAllBlank_indent hw line) hindent, List.map_map]
    refine List.map_congr_left fun line _ => ?_
    by_cases hnil : line = []
    · simp [hnil, indent]
    · rw [Function.comp_apply, indent, if_neg hnil, List.drop_length_add_append]
  · -- all lines are empty
    have hnil : ∀ line ∈ lines, indent w line = line := fun line hline => by
      have hall : line.isAllBlank = true := by
        cases hblank : line.isAllBlank with
        | false => exact absurd ⟨line, hline, hblank⟩ hsome
        | true => rfl
      rw [← htrim line hline, trimEnd_of_isAllBlank hall]
      rfl
    rw [List.map_congr_left hnil, List.map_id']

end Text

end Marginalia
