import Marginalia.Proofs.Diagram.Window
/-!
# What stands around a diagram

Prose above a diagram and the documentation sections below it are cut away from it (`clean_within`), but not before the
common indentation has been taken off all lines: those that are thrown away are measured with the others.  So they have
a say in the diagram by their common indentation, and by nothing else.  Where they are indented less than the diagram,
its lines keep some of their indentation and only the first of them loses all of it, which moves the others against it
(`clean_surrounded`).
-/
namespace Marginalia

open Text (commonIndentation indentation isAllBlank joinLines splitLines trim trimEnd trimStart)

namespace Diagram

/-- Lines that are a diagram from the first to the last. -/
structure IsWhole (diagram : List Text) : Prop where
  starts : ∃ first rest, diagram = first :: rest ∧ isStart first.trim = true
  no_heading : ∀ line ∈ diagram.tail, isHeading line.trim = false
  no_blank_pair : diagram.IsChain fun a b => ¬ (a.isAllBlank = true ∧ b.isAllBlank = true)

/-- A whole diagram with lines of prose above it, and a heading and any other lines below it. -/
structure Surrounded (before diagram : List Text) (heading : Text) (after : List Text) : Prop where
  one_line : ∀ line ∈ before ++ diagram ++ heading :: after, '\n' ∉ line
  prose : ∀ line ∈ before, isStart line.trim = false
  whole : IsWhole diagram
  heading : isHeading heading.trim = true

/-- A line without the white space at its end and without its first `depth` characters. -/
def cut (depth : Nat) (line : Text) : Text := (trimEnd line).drop depth

/-! ## Lines that are cut -/

section Cut

variable {lines : List Text} {line : Text} (hin : line ∈ lines)

theorem trimEnd_cut (depth : Nat) (line : Text) : trimEnd (cut depth line) = cut depth line :=
  Text.trimEnd_eq_self_of_suffix (Text.trimEnd_trimEnd line) (List.drop_suffix _ _)

theorem cut_of_isAllBlank (depth : Nat) (h : line.isAllBlank = true) : cut depth line = [] := by
  rw [cut, Text.trimEnd_of_isAllBlank h, List.drop_nil]

theorem length_cut {n : Nat} (h : line.isAllBlank = false) (hn : n ≤ indentation line) :
    n + (cut n line).length = (trimEnd line).length := by
  have hlt := Text.indentation_lt_length ((Text.isAllBlank_trimEnd line).trans h)
  rw [Text.indentation_trimEnd h] at hlt
  have hlength : (cut n line).length = (trimEnd line).length - n := List.length_drop
  omega

include hin

/-- **Cutting the common indentation off takes white space off.** -/
theorem exists_cut {n : Nat} (hn : n ≤ commonIndentation lines) :
    ∃ gap, (∀ c ∈ gap, isBlank c) ∧ trimEnd line = gap ++ cut n line := by
  refine ⟨(trimEnd line).take n, ?_, (List.take_append_drop _ _).symm⟩
  cases hblank : line.isAllBlank with
  | true => simp [Text.trimEnd_of_isAllBlank hblank]
  | false =>
    refine Text.isBlank_take (Nat.le_trans hn ?_)
    rw [Text.indentation_trimEnd hblank]
    exact Text.commonIndentation_le hin hblank

theorem trimStart_cut {n : Nat} (hn : n ≤ commonIndentation lines) : trimStart (cut n line) = trimStart (trimEnd line) := by
  obtain ⟨gap, hgap, hline⟩ := exists_cut hin hn
  rw [hline, Text.trimStart_append hgap]

theorem trim_cut {n : Nat} (hn : n ≤ commonIndentation lines) : trim (cut n line) = trim line := by
  rw [← Text.trim_trimEnd line]
  unfold trim
  rw [trimStart_cut hin hn]

theorem isAllBlank_cut {n : Nat} (hn : n ≤ commonIndentation lines) : isAllBlank (cut n line) = isAllBlank line := by
  obtain ⟨gap, hgap, hline⟩ := exists_cut hin hn
  rw [← Text.isAllBlank_trimEnd line, hline, Text.isAllBlank_append hgap]

end Cut

/-! ## What is kept -/

namespace IsWhole

variable {diagram : List Text} (h : IsWhole diagram)
include h

/-- A diagram is not blank, so its lines have a common indentation. -/
theorem exists_not_blank : ∃ line ∈ diagram, line.isAllBlank = false := by
  obtain ⟨first, rest, rfl, hfirst⟩ := h.starts
  exact ⟨first, List.mem_cons_self, Bool.eq_false_iff.2 fun hblank =>
    not_all_blank_of_isStart hfirst (List.all_eq_true.1 hblank)⟩

end IsWhole

theorem clean_joinLines {lines : List Text} (hsome : ∃ line ∈ lines, line.isAllBlank = false)
    (hone : ∀ line ∈ lines, '\n' ∉ line) :
    clean id (joinLines lines) = extract (lines.map (cut (commonIndentation lines))) := by
  have hne : lines ≠ [] := by
    rintro rfl
    obtain ⟨line, hin, -⟩ := hsome
    cases hin
  have hdedent : Text.dedent (lines.map trimEnd) = lines.map (cut (commonIndentation lines)) := by
    unfold Text.dedent
    rw [Text.commonIndentation_map_trimEnd hsome, List.map_map]
    rfl
  rw [clean, Text.splitLines_joinLines hne hone]
  exact congrArg extract hdedent

/-- **Of lines around a whole diagram the diagram is kept**, each line without the common indentation of them all. -/
theorem clean_within {before diagram rest : List Text} (hone : ∀ line ∈ before ++ (diagram ++ rest), '\n' ∉ line)
    (hprose : ∀ line ∈ before, isStart line.trim = false) (hwhole : IsWhole diagram)
    (hrest : ∀ stop ∈ rest.head?, isHeading stop.trim = true) :
    clean id (joinLines (before ++ (diagram ++ rest))) =
      (joinLines (diagram.map (cut (commonIndentation (before ++ (diagram ++ rest)))))).trim := by
  have hsome : ∃ line ∈ before ++ (diagram ++ rest), line.isAllBlank = false := by
    obtain ⟨line, hin, hline⟩ := hwhole.exists_not_blank
    exact ⟨line, by simp [hin], hline⟩
  rw [clean_joinLines hsome hone]
  -- cutting decides none of the questions that are asked of a line
  have htrim : ∀ line ∈ before ++ (diagram ++ rest),
      trim (cut (commonIndentation (before ++ (diagram ++ rest))) line) = trim line :=
    fun line hin => trim_cut hin (Nat.le_refl _)
  have hblank : ∀ line ∈ before ++ (diagram ++ rest),
      isAllBlank (cut (commonIndentation (before ++ (diagram ++ rest))) line) = isAllBlank line :=
    fun line hin => isAllBlank_cut hin (Nat.le_refl _)
  generalize cut (commonIndentation (before ++ (diagram ++ rest))) = f at htrim hblank ⊢
  have hchain := isChain_of_no_heading hwhole.no_heading hwhole.no_blank_pair
  have hchain' : (diagram.map f).IsChain fun a b => isPast a b = false := by
    refine (List.isChain_map f).2 (hchain.imp_of_mem_imp fun a b ha hb hpast => ?_)
    rw [isPast, htrim b (by simp [hb]), hblank a (by simp [ha]), hblank b (by simp [hb])]
    exact hpast
  obtain ⟨first, kept, rfl, hfirst⟩ := hwhole.starts
  rw [List.map_append, List.map_append, List.map_cons, List.cons_append, extract_of_start, continuation_append hchain']
  · intro stop hstop
    rw [List.head?_map] at hstop
    obtain ⟨source, hsource, rfl⟩ := Option.map_eq_some_iff.1 hstop
    have hin : source ∈ rest := List.mem_of_mem_head? hsource
    rw [isPast, htrim source (by simp [hin]), hrest source hsource, Bool.true_or]
  · intro line hline
    obtain ⟨source, hsource, rfl⟩ := List.mem_map.1 hline
    rw [htrim source (by simp [hsource])]
    exact hprose source hsource
  · rwa [htrim first (by simp)]

/-! ## When it is the diagram alone -/

/-- Lines end with blank ones, or with none. -/
theorem exists_blank_end (lines : List Text) : ∃ kept blank, lines = kept ++ blank ∧
    (∀ line ∈ blank, line.isAllBlank = true) ∧ ∀ line ∈ kept.getLast?, line.isAllBlank = false := by
  induction lines using List.reverseRecOn with
  | nil => exact ⟨[], [], rfl, by simp, by simp⟩
  | append_singleton lines last ih =>
    cases hlast : last.isAllBlank with
    | false => exact ⟨lines ++ [last], [], by simp, by simp, by simp [hlast]⟩
    | true =>
      obtain ⟨kept, blank, rfl, hblank, hkept⟩ := ih
      refine ⟨kept, blank ++ [last], List.append_assoc _ _ _, fun line hline => ?_, hkept⟩
      rcases List.mem_append.1 hline with hline | hline
      · exact hblank line hline
      · rw [List.mem_singleton.1 hline, hlast]

section Depth

variable {first : Text} {tail : List Text} (hfirst : isStart first.trim = true)
include hfirst

theorem trim_joinLines_cut {kept blank : List Text} (htail : tail = kept ++ blank)
    (hblank : ∀ line ∈ blank, line.isAllBlank = true) (hkept : ∀ line ∈ kept.getLast?, line.isAllBlank = false) {n : Nat}
    (hn : n ≤ commonIndentation (first :: tail)) :
    (joinLines ((first :: tail).map (cut n))).trim = joinLines (trimStart (trimEnd first) :: kept.map (cut n)) := by
  have hsame : ∀ line ∈ first :: tail, isAllBlank (cut n line) = isAllBlank line := fun line hin => isAllBlank_cut hin hn
  rw [htail, List.map_cons, List.map_append, ← trimStart_cut List.mem_cons_self hn]
  apply Text.trim_joinLines_eq
  · intro hall
    have hstart := hsame first List.mem_cons_self
    rw [isAllBlank, List.all_eq_true.2 hall] at hstart
    exact not_all_blank_of_isStart hfirst (List.all_eq_true.1 hstart.symm)
  · intro line hline
    rw [← List.map_cons] at hline
    obtain ⟨source, -, rfl⟩ := List.mem_map.1 hline
    exact trimEnd_cut n source
  · intro line hline hnil
    rw [List.getLast?_map] at hline
    obtain ⟨source, hsource, rfl⟩ := Option.map_eq_some_iff.1 hline
    have hin : source ∈ first :: tail := by
      rw [htail]
      exact List.mem_cons_of_mem _ (List.mem_append_left _ (List.mem_of_mem_getLast? hsource))
    have := hsame source hin
    rw [hnil, hkept source hsource] at this
    cases this
  · intro line hline
    obtain ⟨source, hsource, rfl⟩ := List.mem_map.1 hline
    exact cut_of_isAllBlank n (hblank source hsource)

/-- **A diagram shows how much was cut off it**, unless all its lines but the first are blank. -/
theorem trim_joinLines_cut_eq_iff (hone : ∀ line ∈ first :: tail, '\n' ∉ line) {m n : Nat}
    (hm : m ≤ commonIndentation (first :: tail)) (hn : n ≤ commonIndentation (first :: tail)) :
    (joinLines ((first :: tail).map (cut m))).trim = (joinLines ((first :: tail).map (cut n))).trim ↔
      (∀ line ∈ tail, line.isAllBlank = true) ∨ m = n := by
  obtain ⟨kept, blank, htail, hblank, hkept⟩ := exists_blank_end tail
  rw [trim_joinLines_cut hfirst htail hblank hkept hm, trim_joinLines_cut hfirst htail hblank hkept hn]
  constructor
  · intro heq
    have hlines : ∀ depth, ∀ line ∈ trimStart (trimEnd first) :: kept.map (cut depth), '\n' ∉ line := by
      intro depth
      refine List.forall_mem_cons.2 ⟨Text.not_mem_trimStart (Text.not_mem_trimEnd (hone first List.mem_cons_self)), ?_⟩
      intro line hline hmem
      obtain ⟨source, hsource, rfl⟩ := List.mem_map.1 hline
      refine Text.not_mem_trimEnd (hone source ?_) ((List.drop_suffix _ _).subset hmem)
      simp [htail, hsource]
    have hsplit := congrArg splitLines heq
    rw [Text.splitLines_joinLines (List.cons_ne_nil _ _) (hlines m),
      Text.splitLines_joinLines (List.cons_ne_nil _ _) (hlines n)] at hsplit
    rcases List.eq_nil_or_concat kept with rfl | ⟨init, last, rfl⟩
    · exact Or.inl (htail ▸ hblank)
    · -- the last line that is not blank is as much shorter as was cut off it
      right
      rw [List.concat_eq_append] at hkept hsplit htail
      have hlast : last.isAllBlank = false := hkept last (by simp)
      have hin : last ∈ first :: tail := by simp [htail]
      have hle := Text.commonIndentation_le hin hlast
      have hcut : cut m last = cut n last := by
        rw [List.map_append, List.map_append] at hsplit
        simpa using (List.append_inj' (List.cons.inj hsplit).2 rfl).2
      have hlengthm := length_cut hlast (Nat.le_trans hm hle)
      have hlengthn := length_cut hlast (Nat.le_trans hn hle)
      rw [hcut] at hlengthm
      omega
  · rintro (hall | rfl)
    · have hnil : kept = [] := by
        rcases List.eq_nil_or_concat kept with hnil | ⟨init, last, rfl⟩
        · exact hnil
        · have hlast := hall last (by simp [htail])
          rw [hkept last (by simp)] at hlast
          cases hlast
      rw [hnil]
      rfl
    · rfl

end Depth

/-- **What stands around a diagram has a say in it by its indentation only.**  Cleaned with the lines around it, a
diagram loses the common indentation of them all; by itself it loses its own.  The two are the same just if all its
lines but the first are blank, or no line around it that is not blank is indented less than it is. -/
theorem clean_surrounded {before diagram after : List Text} {heading : Text}
    (h : Surrounded before diagram heading after) :
    clean id (joinLines (before ++ diagram ++ heading :: after)) =
        (joinLines (diagram.map (cut (commonIndentation (before ++ diagram ++ heading :: after))))).trim ∧
      clean id (joinLines diagram) = (joinLines (diagram.map (cut (commonIndentation diagram)))).trim ∧
      (clean id (joinLines (before ++ diagram ++ heading :: after)) = clean id (joinLines diagram) ↔
        (∀ line ∈ diagram.tail, line.isAllBlank = true) ∨
          ∀ line ∈ before ++ heading :: after, line.isAllBlank = false → commonIndentation diagram ≤ indentation line) := by
  obtain ⟨hone, hprose, hwhole, hheading⟩ := h
  have hsome := hwhole.exists_not_blank
  have hdiagram : ∀ line ∈ diagram, '\n' ∉ line := fun line hin => hone line (by simp [hin])
  have hall := @clean_within before diagram (heading :: after) (by rwa [← List.append_assoc]) hprose hwhole
    (by simpa using hheading)
  have halone := @clean_within [] diagram [] (by simpa using hdiagram) (List.forall_mem_nil _) hwhole (by simp)
  rw [List.nil_append, List.append_nil] at halone
  rw [← List.append_assoc] at hall
  refine ⟨hall, halone, ?_⟩
  have hsubset : diagram ⊆ before ++ diagram ++ heading :: after := fun line hin => by simp [hin]
  have hle := Text.commonIndentation_le_of_subset hsome hsubset
  have hleast : commonIndentation (before ++ diagram ++ heading :: after) = commonIndentation diagram ↔
      ∀ line ∈ before ++ heading :: after, line.isAllBlank = false → commonIndentation diagram ≤ indentation line := by
    obtain ⟨line, hin, hline, hindent⟩ := Text.exists_indentation_eq hsome
    rw [Text.commonIndentation_eq_iff ⟨line, hsubset hin, hline⟩]
    constructor
    · rintro ⟨-, hbound⟩ l hl
      refine hbound l ?_
      rcases List.mem_append.1 hl with hl | hl <;> simp [hl]
    · refine fun hbound => ⟨⟨line, hsubset hin, hline, hindent⟩, fun l hl hnot => ?_⟩
      rcases List.mem_append.1 hl with hl | hl
      · rcases List.mem_append.1 hl with hl | hl
        · exact hbound l (List.mem_append_left _ hl) hnot
        · exact Text.commonIndentation_le hl hnot
      · exact hbound l (List.mem_append_right _ hl) hnot
  rw [hall, halone, ← hleast]
  obtain ⟨first, rest, rfl, hfirst⟩ := hwhole.starts
  exact trim_joinLines_cut_eq_iff hfirst hdiagram hle (Nat.le_refl _)

/-- An indented diagram. -/
def flow : List Text := ["  graph TD", "    A --> B"].map String.toList

theorem surrounded_flow : Surrounded ["The flow.".toList] flow "  Note: a draft".toList [] where
  one_line := by decide
  prose := by decide
  whole := ⟨⟨_, _, rfl, by decide⟩, by decide, by decide⟩
  heading := by decide

theorem clean_surrounded_flow : Surrounded ["The flow.".toList] flow "  Note: a draft".toList [] ∧
    clean id (joinLines (["The flow.".toList] ++ flow ++ ["  Note: a draft".toList])) = "graph TD\n    A --> B".toList ∧
    clean id (joinLines flow) = "graph TD\n  A --> B".toList ∧
    ¬ ∀ line ∈ ["The flow.".toList, "  Note: a draft".toList],
      isAllBlank line = false → commonIndentation flow ≤ indentation line := by
  obtain ⟨hall, halone, hiff⟩ := clean_surrounded surrounded_flow
  refine ⟨surrounded_flow, hall.trans (by decide), halone.trans (by decide), fun hbound => ?_⟩
  exact absurd (hiff.2 (Or.inr hbound)) (by decide)

/-- Prose that is cut away moves the lines of a diagram that is indented more. -/
theorem prose_moves_diagram : ¬ ∀ before diagram heading after, Surrounded before diagram heading after →
    clean id (joinLines (before ++ diagram ++ heading :: after)) = clean id (joinLines diagram) := by
  intro h
  exact absurd (h _ _ _ _ surrounded_flow) (by decide)

end Diagram

end Marginalia
