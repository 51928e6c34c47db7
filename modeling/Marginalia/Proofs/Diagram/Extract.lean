import Mathlib.Data.List.Chain
import Marginalia.Diagram.Code
import Marginalia.Diagram.Extract
import Marginalia.Proofs.Text.Indentation
import Marginalia.Proofs.Text.Trim
/-!
# Diagrams that survive their cleaning

A comment's body is cleaned line by line, then its indentation goes, then the diagram is cut out of it.  Where no line
starts a diagram, all of them are kept (`extract_of_prose`); else those above the start have no say in it
(`extract_of_start`), and it goes on up to the first line past its end (`continuation_append`).

For the lines of an embeddable diagram, indented by the same white space and with a blank line behind, all three together
give the lines back (`clean_eq`): the first line starts the diagram and is not indented itself, no later line ends it, and
the blank line behind is trimmed away.
-/
namespace Marginalia

open Text (joinLines trimStart trimEnd)

namespace Diagram

/-- Lines of a diagram that can stand in a comment: they are the whole of it for one who reads it from its start to its
end, and neither white space nor the margin of the comment is lost on them. -/
structure Embeddable (lines : List Text) : Prop where
  starts : ∃ first rest, lines = first :: rest ∧ isStart first = true
  one_line : ∀ line ∈ lines, '\n' ∉ line
  no_trailing_blank : ∀ line ∈ lines, line.getLast?.any isBlank = false
  last_not_blank : ∀ line ∈ lines.getLast?, line.isAllBlank = false
  no_blank_pair : lines.IsChain fun a b => ¬ (a.isAllBlank = true ∧ b.isAllBlank = true)
  no_heading : ∀ line ∈ lines.tail, isHeading line.trim = false
  long_enough : 3 ≤ (joinLines lines).length
  no_settings : ∀ fragment ∈ settingsFragments, ¬ fragment <:+: joinLines lines

theorem keywords_head : ∀ word ∈ keywords, word.head?.any (fun w => !isBlank (foldCase w)) = true := by
  decide

theorem isBlank_of_isStart {line : Text} (h : isStart line = true) : ∃ c rest, line = c :: rest ∧ isBlank c = false := by
  obtain ⟨word, hword, hbegins⟩ := List.any_eq_true.1 h
  obtain ⟨rest, hrest⟩ := Option.isSome_iff_exists.1 hbegins
  obtain ⟨s, rfl, hs⟩ := Text.exists_afterWord? hrest
  have hhead := keywords_head word hword
  cases word with
  | nil => cases hhead
  | cons w word =>
    cases s with
    | nil => cases hs
    | cons c s =>
      obtain ⟨hfold, -⟩ := List.cons.inj hs
      refine ⟨c, s ++ rest, rfl, ?_⟩
      rw [← isBlank_foldCase, hfold]
      simpa using hhead

theorem not_all_blank_of_isStart {line : Text} (h : isStart line.trim = true) : ¬ ∀ c ∈ line, isBlank c := by
  intro hblank
  obtain ⟨c, rest, htrim, -⟩ := isBlank_of_isStart h
  rw [Text.trim, Text.trimStart_eq_nil hblank] at htrim
  cases htrim

/-! ## The diagram among its lines -/

theorem isPast_eq_false_iff {previous line : Text} : isPast previous line = false ↔
    isHeading line.trim = false ∧ ¬ (previous.isAllBlank = true ∧ line.isAllBlank = true) := by
  rw [isPast, Bool.or_eq_false_iff, Bool.and_eq_false_iff, not_and_or, Bool.not_eq_true, Bool.not_eq_true]

/-- Behind the first line, a diagram has no line past its end if it has no heading and no two blank lines in a row. -/
theorem isChain_of_no_heading {lines : List Text} (hheading : ∀ line ∈ lines.tail, isHeading line.trim = false)
    (hpair : lines.IsChain fun a b => ¬ (a.isAllBlank = true ∧ b.isAllBlank = true)) :
    lines.IsChain fun a b => isPast a b = false :=
  hpair.imp_of_mem_tail_imp fun _ b _ hb hab => isPast_eq_false_iff.2 ⟨hheading b hb, hab⟩

theorem continuation_cons (first next : Text) (rest : List Text) :
    continuation first (next :: rest) = if isPast first next then [] else next :: continuation next rest := by
  unfold continuation
  rw [List.zip_cons_cons, List.takeWhile_cons]
  cases hpast : isPast first next <;> simp [hpast]

/-- The lines hold no start, or begin a diagram behind some that do not start one. -/
theorem prose_or_started (lines : List Text) : (∀ line ∈ lines, isStart line.trim = false) ∨
    ∃ before first rest, lines = before ++ first :: rest ∧ (∀ line ∈ before, isStart line.trim = false) ∧
      isStart first.trim = true := by
  cases hdrop : lines.dropWhile fun line => !isStart line.trim with
  | nil => exact Or.inl (by simpa using List.dropWhile_eq_nil_iff.1 hdrop)
  | cons first rest =>
    refine Or.inr ⟨lines.takeWhile fun line => !isStart line.trim, first, rest, ?_, fun line hline => ?_, ?_⟩
    · rw [← hdrop, List.takeWhile_append_dropWhile]
    · simpa using List.mem_takeWhile_imp hline
    · have hhead := List.head?_dropWhile_not (fun line : Text => !isStart line.trim) lines
      rw [hdrop] at hhead
      simpa using hhead

theorem extract_of_prose {lines : List Text} (h : ∀ line ∈ lines, isStart line.trim = false) :
    extract lines = (joinLines lines).trim := by
  rw [extract, List.dropWhile_eq_nil_iff.2 (by simpa using h)]

/-- **The lines above the start of a diagram have no say in it.** -/
theorem extract_of_start {before : List Text} (hbefore : ∀ line ∈ before, isStart line.trim = false) {first : Text}
    (hfirst : isStart first.trim = true) (rest : List Text) :
    extract (before ++ first :: rest) = (joinLines (first :: continuation first rest)).trim := by
  rw [extract, List.dropWhile_append_of_pos (by simpa using hbefore), List.dropWhile_cons_of_neg (by simp [hfirst])]

/-- Lines none of which lies past the end, and the next of which does, are all that continues a diagram. -/
theorem continuation_append {first : Text} {kept after : List Text}
    (hkept : (first :: kept).IsChain fun a b => isPast a b = false)
    (hafter : ∀ stop ∈ after.head?, isPast ((first :: kept).getLast (List.cons_ne_nil _ _)) stop = true) :
    continuation first (kept ++ after) = kept := by
  induction kept generalizing first with
  | nil =>
    cases after with
    | nil => rfl
    | cons stop later => rw [List.nil_append, continuation_cons, if_pos (by simpa using hafter)]
  | cons next kept ih =>
    obtain ⟨hnext, hrest⟩ := List.isChain_cons_cons.1 hkept
    rw [List.cons_append, continuation_cons, if_neg (by simp [hnext]), ih hrest (by simpa using hafter)]

theorem continuation_eq_self {first : Text} {rest : List Text}
    (h : (first :: rest).IsChain fun a b => isPast a b = false) : continuation first rest = rest := by
  have := @continuation_append first rest [] h (by simp)
  rwa [List.append_nil] at this

namespace Embeddable

variable {lines : List Text}

theorem trimEnd_line (h : Embeddable lines) {line : Text} (hin : line ∈ lines) : trimEnd line = line :=
  Text.trimEnd_eq_self (h.no_trailing_blank line hin)

theorem isChain_not_past (h : Embeddable lines) : (lines ++ [[]]).IsChain fun a b => isPast a b = false := by
  refine List.isChain_append.2 ⟨isChain_of_no_heading h.no_heading h.no_blank_pair, List.isChain_singleton _, ?_⟩
  intro a ha b hb
  obtain rfl : [] = b := by simpa using hb
  rw [isPast, h.last_not_blank a ha]
  decide

theorem exists_first (h : Embeddable lines) : ∃ first rest, lines = first :: rest ∧ first ≠ [] ∧
    trimStart first = first ∧ isStart first.trim = true := by
  have htrim : ∀ line ∈ lines, trimEnd line = line := fun line => h.trimEnd_line
  obtain ⟨first, rest, rfl, hstart⟩ := h.starts
  obtain ⟨c, line, rfl, hc⟩ := isBlank_of_isStart hstart
  have hflush : trimStart (c :: line) = c :: line := Text.trimStart_cons hc
  refine ⟨_, rest, rfl, List.cons_ne_nil _ _, hflush, ?_⟩
  rwa [Text.trim, hflush, htrim _ List.mem_cons_self]

/-- Only empty lines behind the diagram are trimmed. -/
theorem trim_joinLines_append (h : Embeddable lines) {blank : List Text} (hblank : ∀ line ∈ blank, line = []) :
    (joinLines (lines ++ blank)).trim = joinLines lines := by
  have htrim : ∀ line ∈ lines, trimEnd line = line := fun line => h.trimEnd_line
  have hlast := h.last_not_blank
  obtain ⟨first, rest, rfl, -, hflush, hstart⟩ := h.exists_first
  have hend : ∀ line ∈ rest.getLast?, line ≠ [] := by
    rintro line hline rfl
    have := hlast [] (by rw [List.getLast?_cons, Option.mem_def.1 hline]; rfl)
    cases this
  have := Text.trim_joinLines_eq (not_all_blank_of_isStart hstart) htrim hend hblank
  rwa [hflush, ← List.cons_append] at this

theorem trim_joinLines (h : Embeddable lines) : (joinLines lines).trim = joinLines lines := by
  have := h.trim_joinLines_append (List.forall_mem_nil _)
  rwa [List.append_nil] at this

theorem extract_eq (h : Embeddable lines) : extract (lines ++ [[]]) = joinLines lines := by
  have hchain := h.isChain_not_past
  have htrim := h.trim_joinLines_append (List.forall_mem_singleton.2 rfl)
  obtain ⟨first, rest, rfl, -, -, hstart⟩ := h.exists_first
  have hextract := extract_of_start (List.forall_mem_nil _) hstart (rest ++ [[]])
  rw [List.cons_append] at hchain htrim ⊢
  rw [List.nil_append, continuation_eq_self hchain] at hextract
  exact hextract.trans htrim

/-! ## Indentation -/

/-- **A diagram loses the margin of its comment**, and no more. -/
theorem dedent_eq (h : Embeddable lines) {gap : Text} (hgap : ∀ c ∈ gap, isBlank c) :
    Text.dedent (lines.map (fun line => trimEnd (gap ++ line)) ++ [[]]) = lines ++ [[]] := by
  have hindent : lines.map (fun line => trimEnd (gap ++ line)) ++ [[]] = (lines ++ [[]]).map (Text.indent gap) := by
    rw [List.map_append]
    refine congrArg (· ++ [[]]) (List.map_congr_left fun line hline => ?_)
    rw [Text.trimEnd_indented hgap, h.trimEnd_line hline]
  have htrim : ∀ line ∈ lines ++ [[]], trimEnd line = line := fun line hline => by
    rcases List.mem_append.1 hline with hline | hline
    · exact h.trimEnd_line hline
    · rw [List.mem_singleton.1 hline]
      rfl
  rw [hindent, Text.dedent_map_indent hgap htrim]
  obtain ⟨first, rest, rfl, hne, hflush, -⟩ := h.exists_first
  exact Text.dedent_flush hflush hne _

/-- **The lines of a diagram come through the cleaning of their comment**, if its decoration is white space after it
is stripped and a blank line follows. -/
theorem clean_eq (h : Embeddable lines) {gap : Text} (hgap : ∀ c ∈ gap, isBlank c) {strip : Text → Text} {raw : Text}
    (hraw : raw.splitLines.map (fun line => (strip line).trimEnd) =
      lines.map (fun line => trimEnd (gap ++ line)) ++ [[]]) :
    clean strip raw = joinLines lines := by
  rw [clean, hraw, h.dedent_eq hgap, h.extract_eq]

theorem joinLines_ne_nil (h : Embeddable lines) : joinLines lines ≠ [] := fun hnil => by
  have := h.long_enough
  rw [hnil] at this
  exact absurd this (by decide)

def code (h : Embeddable lines) : DiagramCode := ⟨joinLines lines, h.trim_joinLines, h.joinLines_ne_nil⟩

theorem not_isRejected (h : Embeddable lines) : isRejected (joinLines lines) = false := by
  rw [isRejected, Bool.or_eq_false_iff]
  constructor
  · exact decide_eq_false (Nat.not_lt_of_le h.long_enough)
  · rw [List.any_eq_false]
    intro fragment hin
    rw [Text.contains_iff]
    exact h.no_settings fragment hin

end Embeddable

end Diagram

end Marginalia
