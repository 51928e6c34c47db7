import Mathlib.Data.List.Forall2
import Mathlib.Data.List.Induction
import Marginalia.Proofs.Diagram.Extract
import Marginalia.Proofs.Tidiness
/-!
# Diagrams below a hanging margin

White space in front of all lines of a body but the first, whose own indentation is gone already, stays in its diagram.
The common indentation is that of the first line, so nothing is taken off; the same lines are kept, since none of the
questions that are asked of a line looks at the white space before it.  So the diagram is the same but for this margin
(`extract_hang`), and it is accepted as it was before (`isRejected_hang`).
-/
namespace Marginalia

namespace Text

/-- A text with a margin before each of its lines but the first. -/
def hang (w t : Text) : Text :=
  match splitLines t with
  | [] => []
  | first :: rest => joinLines (first :: rest.map (indent w))

theorem exists_hang (w t : Text) : ∃ first rest, splitLines t = first :: rest ∧ t = joinLines (first :: rest) ∧
    hang w t = joinLines (first :: rest.map (indent w)) := by
  obtain ⟨first, rest, hsplit⟩ := List.exists_cons_of_ne_nil (splitLines_ne_nil t)
  exact ⟨first, rest, hsplit, by rw [← hsplit, joinLines_splitLines], by rw [hang, hsplit]⟩

theorem hang_nil (t : Text) : hang [] t = t := by
  obtain ⟨first, rest, -, ht, hhang⟩ := exists_hang [] t
  rw [hhang, indent_nil, List.map_id, ← ht]

theorem hang_joinLines (w : Text) {first : Text} {rest : List Text} (h : ∀ line ∈ first :: rest, '\n' ∉ line) :
    hang w (joinLines (first :: rest)) = joinLines (first :: rest.map (indent w)) := by
  rw [hang, splitLines_joinLines (List.cons_ne_nil _ _) h]

theorem hang_of_not_mem (w : Text) {t : Text} (h : '\n' ∉ t) : hang w t = t := by
  rw [hang, splitLines_last h]
  exact joinLines_singleton t

section Margin

variable {w : Text} (hw : ∀ c ∈ w, isBlank c)
include hw

/-- The end of hanging lines is trimmed as before. -/
theorem trimEnd_hang {first : Text} {rest : List Text} (htrim : ∀ line ∈ first :: rest, trimEnd line = line)
    (hone : ∀ line ∈ first :: rest, '\n' ∉ line) :
    trimEnd (joinLines (first :: rest.map (indent w))) = hang w (trimEnd (joinLines (first :: rest))) := by
  induction rest using List.reverseRecOn with
  | nil =>
    rw [List.map_nil, joinLines_singleton, htrim first List.mem_cons_self,
      hang_of_not_mem w (hone first List.mem_cons_self)]
  | append_singleton rest last ih =>
    have hinit : ∀ line ∈ first :: rest, line ∈ first :: (rest ++ [last]) := fun line hline => by
      rw [← List.cons_append]
      exact List.mem_append_left _ hline
    have hlast : trimEnd last = last := htrim last (by simp)
    rw [List.map_append, List.map_singleton, ← List.cons_append, ← List.cons_append]
    by_cases hnil : last = []
    · -- the last line is empty in both
      have hempty : ∀ line ∈ [([] : Text)], line = [] := List.forall_mem_singleton.2 rfl
      rw [hnil, indent, if_pos rfl, trimEnd_joinLines_empty (List.cons_ne_nil _ _) hempty,
        trimEnd_joinLines_empty (List.cons_ne_nil _ _) hempty]
      exact ih (fun line hline => htrim line (hinit line hline)) fun line hline => hone line (hinit line hline)
    · have hindent : indent w last ≠ [] := mt (indent_eq_nil_iff w last).1 hnil
      rw [trimEnd_joinLines_concat hindent (trimEnd_indent hw hlast), trimEnd_joinLines_concat hnil hlast,
        List.cons_append, List.cons_append, hang_joinLines w hone, List.map_append, List.map_singleton]

/-- **Trimming hanging lines leaves the trimmed lines hanging.** -/
theorem trim_hang {first first' : Text} (hfirst : trimStart first' = trimStart first)
    (hblank : ¬ ∀ c ∈ first, isBlank c) {rest : List Text} (htrim : ∀ line ∈ first :: rest, trimEnd line = line)
    (hone : ∀ line ∈ first :: rest, '\n' ∉ line) :
    trim (joinLines (first' :: rest.map (indent w))) = hang w (trim (joinLines (first :: rest))) := by
  have hblank' : ¬ ∀ c ∈ first', isBlank c := by
    have hall := isAllBlank_trimStart first'
    rw [hfirst, isAllBlank_trimStart] at hall
    exact fun h => hblank (List.all_eq_true.1 (hall.trans (List.all_eq_true.2 h)))
  rw [trim, trim, trimStart_joinLines_cons hblank', trimStart_joinLines_cons hblank, hfirst]
  refine trimEnd_hang hw (fun line hline => ?_) fun line hline => ?_
  · rcases List.mem_cons.1 hline with rfl | hline
    · exact trimEnd_eq_self_of_suffix (htrim first List.mem_cons_self) (List.dropWhile_suffix _)
    · exact htrim line (List.mem_cons_of_mem _ hline)
  · rcases List.mem_cons.1 hline with rfl | hline
    · exact not_mem_trimStart (hone first List.mem_cons_self)
    · exact hone line (List.mem_cons_of_mem _ hline)

end Margin

/-! ## What a margin adds -/

theorem sublist_joinLines {a b : List Text} (h : List.Forall₂ List.Sublist a b) :
    (joinLines a).Sublist (joinLines b) := by
  induction h with
  | nil => exact List.Sublist.refl _
  | @cons line line' a b hline h ih =>
    cases h with
    | nil =>
      rw [joinLines_singleton, joinLines_singleton]
      exact hline
    | cons _ _ =>
      rw [joinLines_cons (List.cons_ne_nil _ _), joinLines_cons (List.cons_ne_nil _ _)]
      exact hline.append (ih.cons_cons '\n')

/-- A margin only adds to a text. -/
theorem sublist_hang (w t : Text) : t.Sublist (hang w t) := by
  obtain ⟨first, rest, -, ht, hhang⟩ := exists_hang w t
  rw [hhang, ht]
  refine sublist_joinLines (.cons (List.Sublist.refl first) (List.forall₂_map_right_iff.2 (List.forall₂_same.2 ?_)))
  intro line _
  rcases indent_eq_or w line with h | h
  · rw [h]
  · rw [h]
    exact List.sublist_append_right w line

/-- What does not begin with white space cannot begin in a margin. -/
theorem infix_margin_iff {w p t : Text} {c : Char} (hc : c ∉ w) : c :: p <:+: w ++ t ↔ c :: p <:+: t := by
  induction w with
  | nil => rfl
  | cons x w ih =>
    rw [List.cons_append, List.infix_cons_iff, ih fun hmem => hc (List.mem_cons_of_mem _ hmem), or_iff_right]
    rintro ⟨q, hq⟩
    exact hc ((List.cons.inj hq).1 ▸ List.mem_cons_self)

theorem infix_joinLines_iff {mark : Text} (hne : mark ≠ []) (hn : '\n' ∉ mark) {lines : List Text} :
    mark <:+: joinLines lines ↔ ∃ line ∈ lines, mark <:+: line :=
  ⟨infix_joinLines hne hn, fun ⟨_, hline, h⟩ => h.trans (infix_joinLines_of_mem hline)⟩

theorem infix_hang_iff {w : Text} (hw : ∀ c ∈ w, isBlank c) {c : Char} {p : Text} (hc : isBlank c = false)
    (hn : '\n' ∉ c :: p) (t : Text) : c :: p <:+: hang w t ↔ c :: p <:+: t := by
  have hmargin : c ∉ w := fun hmem => ne_of_isBlank (hw c hmem) hc rfl
  have hindent : ∀ line, c :: p <:+: indent w line ↔ c :: p <:+: line := by
    intro line
    rcases indent_eq_or w line with h | h
    · rw [h]
    · rw [h, infix_margin_iff hmargin]
  have hne : c :: p ≠ [] := List.cons_ne_nil c p
  obtain ⟨first, rest, -, ht, hhang⟩ := exists_hang w t
  rw [hhang, ht, infix_joinLines_iff hne hn, infix_joinLines_iff hne hn]
  simp only [List.mem_cons, List.mem_map, exists_eq_or_imp, exists_exists_and_eq_and, hindent]

theorem three_le_length {t : Text} (ht : t.trim = t) (hn : '\n' ∈ t) : 3 ≤ t.length := by
  have hstart : trimStart t = t := by
    have := trimStart_trim t
    rwa [ht] at this
  have hend : trimEnd t = t := by
    have := trimEnd_trimEnd (trimStart t)
    rwa [← trim, ht] at this
  have hhead := head?_trimStart t
  rw [hstart] at hhead
  obtain ⟨a, b, rfl⟩ := List.append_of_mem hn
  have ha : a ≠ [] := by
    rintro rfl
    cases hhead
  have hb : b ≠ [] := by
    rintro rfl
    rw [trimEnd_eq_self_iff, List.getLast?_concat] at hend
    cases hend
  have := List.length_pos_iff.2 ha
  have := List.length_pos_iff.2 hb
  simp only [List.length_append, List.length_cons]
  omega

theorem hang_append_line (w a : Text) {line : Text} (h : '\n' ∉ line) :
    hang w (a ++ '\n' :: line) = hang w a ++ '\n' :: indent w line := by
  obtain ⟨first, rest, hsplit, -, hhang⟩ := exists_hang w a
  rw [hhang, hang, splitLines_append_newline, splitLines_last h, hsplit]
  dsimp only [List.cons_append]
  rw [List.map_append, List.map_singleton, ← List.cons_append, joinLines_append (List.cons_ne_nil _ _)
    (List.cons_ne_nil _ _), joinLines_singleton]

/-- A margin is seen in every trimmed text of several lines. -/
theorem hang_eq_self_iff {w t : Text} (ht : t.trim = t) : hang w t = t ↔ w = [] ∨ '\n' ∉ t := by
  constructor
  · intro heq
    refine or_iff_not_imp_right.2 fun hmem => ?_
    obtain ⟨a, l, rfl, hl⟩ := exists_last (not_not.1 hmem)
    have hend := trimEnd_trimEnd (trimStart (a ++ '\n' :: l))
    rw [← trim, ht, trimEnd_eq_self_iff] at hend
    have hne : l ≠ [] := by
      rintro rfl
      rw [List.getLast?_concat] at hend
      cases hend
    have hlength := congrArg List.length heq
    have hle := (sublist_hang w a).length_le
    rw [hang_append_line w _ hl, indent, if_neg hne] at hlength
    simp only [List.length_append, List.length_cons] at hlength
    exact List.length_eq_zero_iff.1 (by omega)
  · rintro (rfl | hmem)
    · exact hang_nil t
    · exact hang_of_not_mem w hmem

end Text

namespace Diagram

open Text (hang indent joinLines trimStart trimEnd)

section Margin

variable {w : Text} (hw : ∀ c ∈ w, isBlank c)
include hw

theorem continuation_hang : ∀ {first first' : Text} {rest : List Text}, first'.isAllBlank = first.isAllBlank →
    continuation first' (rest.map (indent w)) = (continuation first rest).map (indent w)
  | _, _, [], _ => rfl
  | first, first', next :: rest, h => by
    have hpast : isPast first' (indent w next) = isPast first next := by
      rw [isPast, isPast, Text.trim_indent hw, Text.isAllBlank_indent hw, h]
    rw [List.map_cons, continuation_cons, continuation_cons, hpast, continuation_hang (Text.isAllBlank_indent hw next)]
    cases isPast first next <;> rfl

theorem window_hang {first first' : Text} {rest : List Text} (hstart : trimStart first' = trimStart first)
    (hblank : ¬ ∀ c ∈ first, isBlank c) (htrim : ∀ line ∈ first :: rest, trimEnd line = line)
    (hone : ∀ line ∈ first :: rest, '\n' ∉ line) :
    (joinLines (first' :: continuation first' (rest.map (indent w)))).trim =
      hang w (joinLines (first :: continuation first rest)).trim := by
  have hall : ∀ line ∈ first :: continuation first rest, line ∈ first :: rest := fun line hline =>
    (List.cons_prefix_cons.2 ⟨rfl, continuation_prefix first rest⟩).subset hline
  have hsame : first'.isAllBlank = first.isAllBlank := by
    rw [← Text.isAllBlank_trimStart, hstart, Text.isAllBlank_trimStart]
  rw [continuation_hang hw hsame]
  exact Text.trim_hang hw hstart hblank (fun line hline => htrim line (hall line hline)) fun line hline =>
    hone line (hall line hline)

/-- **The same lines are extracted**, below the margin. -/
theorem extract_hang {first : Text} {rest : List Text} (hblank : ¬ ∀ c ∈ first, isBlank c)
    (htrim : ∀ line ∈ first :: rest, trimEnd line = line) (hone : ∀ line ∈ first :: rest, '\n' ∉ line) :
    extract (first :: rest.map (indent w)) = hang w (extract (first :: rest)) := by
  have hprose : ∀ {lines : List Text}, (∀ line ∈ lines, isStart line.trim = false) →
      ∀ line ∈ lines.map (indent w), isStart line.trim = false := fun h line hline => by
    obtain ⟨source, hsource, rfl⟩ := List.mem_map.1 hline
    rw [Text.trim_indent hw]
    exact h source hsource
  rcases prose_or_started (first :: rest) with hnone | ⟨before, start, lines, hlines, hbefore, hstart⟩
  · obtain ⟨hfirst, hrest⟩ := List.forall_mem_cons.1 hnone
    rw [extract_of_prose hnone, extract_of_prose (List.forall_mem_cons.2 ⟨hfirst, hprose hrest⟩)]
    exact Text.trim_hang hw rfl hblank htrim hone
  · rw [hlines] at htrim hone
    have htrim' : ∀ line ∈ start :: lines, trimEnd line = line := fun line hline =>
      htrim line (List.mem_append_right _ hline)
    have hone' : ∀ line ∈ start :: lines, '\n' ∉ line := fun line hline => hone line (List.mem_append_right _ hline)
    cases before with
    | nil =>
      obtain ⟨rfl, rfl⟩ := List.cons.inj hlines
      have hplain := extract_of_start hbefore hstart rest
      have hmoved := extract_of_start hbefore hstart (rest.map (indent w))
      rw [List.nil_append] at hplain hmoved
      rw [hplain, hmoved, window_hang hw rfl hblank htrim' hone']
    | cons _ before =>
      -- a later line starts the diagram, and loses its margin to the trimming
      rw [List.cons_append] at hlines
      obtain ⟨rfl, rfl⟩ := List.cons.inj hlines
      obtain ⟨hfirst, hbetween⟩ := List.forall_mem_cons.1 hbefore
      have habove : ∀ line ∈ first :: before.map (indent w), isStart line.trim = false :=
        List.forall_mem_cons.2 ⟨hfirst, hprose hbetween⟩
      have hstart' : isStart (indent w start).trim = true := by rwa [Text.trim_indent hw]
      rw [List.map_append, List.map_cons, ← List.cons_append, ← List.cons_append, extract_of_start hbefore hstart,
        extract_of_start habove hstart', window_hang hw (Text.trimStart_indent hw start)
          (not_all_blank_of_isStart hstart) htrim' hone']

end Margin

/-! ## What is accepted -/

theorem settingsFragments_begin : ∀ fragment ∈ settingsFragments,
    fragment.head?.any (fun c => !isBlank c) = true ∧ '\n' ∉ fragment := by
  decide

/-- **A diagram is accepted below a hanging margin as it was before.** -/
theorem isRejected_hang {w : Text} (hw : ∀ c ∈ w, isBlank c) {t : Text} (ht : t.trim = t) :
    isRejected (hang w t) = isRejected t := by
  have hlength : 3 ≤ (hang w t).length ↔ 3 ≤ t.length := by
    by_cases hn : '\n' ∈ t
    · have hlong := Text.three_le_length ht hn
      exact iff_of_true (hlong.trans (Text.sublist_hang w t).length_le) hlong
    · rw [Text.hang_of_not_mem w hn]
  rw [Bool.eq_iff_iff, ← not_iff_not, Bool.not_eq_true, Bool.not_eq_true, isRejected_eq_false_iff,
    isRejected_eq_false_iff]
  refine and_congr hlength (forall₂_congr fun fragment hfragment => not_congr ?_)
  obtain ⟨hhead, hnewline⟩ := settingsFragments_begin fragment hfragment
  cases fragment with
  | nil => cases hhead
  | cons c p => exact Text.infix_hang_iff hw (by simpa using hhead) hnewline t

end Diagram

end Marginalia
