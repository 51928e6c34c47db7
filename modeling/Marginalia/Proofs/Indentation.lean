import Marginalia.Proofs.Concatenation
import Marginalia.Proofs.Diagram.Hanging
import Marginalia.Proofs.Embedding
/-!
# Undecorated comments behind a margin

A block comment without decoration, with its marker on a line of its own, is moved to the right by a margin of spaces
and tabs before each of its lines.  What is found does not move: the same blocks, over the same lines.  But the head of
a block comment takes all the white space behind the marker, and with it the newline and the indentation of the first
line that is not blank.  The common indentation is measured on what is left, where that line has none, so nothing is
taken off: the diagram keeps the margin before all its lines but the first (`clean_raw`), and it is the same only
without a margin or on one line (`parse_margin`).
-/
namespace Marginalia

open Document (Finding finding code? maximumLength)
open Marginalia.Embedding (framed frame below)
open Text (hang indent joinLines trimStart trimEnd)

namespace Document

/-- The markup of a body is what cleaning leaves, if that is accepted. -/
theorem map_markup_code? (style : CommentStyle) (raw : Text) : (code? style raw).map (·.markup) =
    if Diagram.isRejected (Diagram.clean style.strip raw) then none else some (Diagram.clean style.strip raw) := by
  cases hcode : code? style raw with
  | some code =>
    rw [← code?_markup hcode, accepted_of_code? hcode]
    rfl
  | none =>
    split
    · rfl
    · rename_i haccepted
      -- what is accepted is not empty, so it is the markup of a diagram
      exfalso
      have haccepted' := Bool.eq_false_iff.2 haccepted
      have hlong := (Diagram.isRejected_eq_false_iff.1 haccepted').1
      have hclean : Diagram.clean style.strip raw ≠ [] := by
        intro hnil
        rw [hnil] at hlong
        exact absurd hlong (by decide)
      have hsome := @code?_eq_some style raw ⟨_, Diagram.trim_clean style.strip raw, hclean⟩ rfl haccepted'
      rw [hcode] at hsome
      cases hsome

end Document

namespace Undecorated

/-- Lines that can stand in a block comment without decoration: none has a star for its first character but white space,
and none closes the comment. -/
structure Lines (lines : List Text) : Prop where
  one_line : ∀ line ∈ lines, '\n' ∉ line
  unstarred : ∀ line ∈ lines, (trimStart line).head? ≠ some '*'
  unclosed : ∀ line ∈ lines, ¬ "*/".toList <:+: line

/-- A block comment with the word `mermaid` on a line of its own and lines below it, all behind a margin. -/
def comment (w : Text) (lines : List Text) : Text :=
  joinLines ((["/*".toList, "mermaid".toList] ++ lines ++ ["*/".toList]).map (w ++ ·))

/-- The body of the comment behind its marker. -/
def raw (w : Text) (lines : List Text) : Text := trimStart (below w w lines)

variable {w : Text} {lines : List Text}

theorem comment_eq (w : Text) (lines : List Text) :
    comment w lines = framed (w ++ "/*".toList) w (w ++ "*/".toList) "mermaid".toList lines := by
  simp [comment, framed, frame]

/-- Lines are blank, or some of them stand above one that is not. -/
theorem blank_or_exists (lines : List Text) : (∀ line ∈ lines, ∀ c ∈ line, isBlank c) ∨
    ∃ blank first rest, lines = blank ++ first :: rest ∧ (∀ line ∈ blank, ∀ c ∈ line, isBlank c) ∧
      ¬ ∀ c ∈ first, isBlank c := by
  induction lines with
  | nil => exact Or.inl (by simp)
  | cons line lines ih =>
    by_cases hline : ∀ c ∈ line, isBlank c
    · have hcons : ∀ {blank : List Text}, (∀ l ∈ blank, ∀ c ∈ l, isBlank c) → ∀ l ∈ line :: blank, ∀ c ∈ l, isBlank c :=
        fun h => List.forall_mem_cons.2 ⟨hline, h⟩
      rcases ih with h | ⟨blank, first, rest, rfl, hblank, hfirst⟩
      · exact Or.inl (hcons h)
      · exact Or.inr ⟨line :: blank, first, rest, rfl, hcons hblank, hfirst⟩
    · exact Or.inr ⟨[], line, lines, rfl, by simp, hline⟩

section Margin

variable (hw : ∀ c ∈ w, c = ' ' ∨ c = '\t')
include hw

/-! ## The comment -/

theorem candidates_comment (h : Lines lines) : CommentStyle.block.candidates (comment w lines) =
    [⟨w.byteLength, (comment w lines).byteLength, raw w lines⟩] := by
  -- no star stands in the margin, so a closer is in the marker's line or in one of the lines
  have habsent : ¬ "*/".toList <:+: framed [] w w "mermaid".toList lines := by
    intro hin
    have hmargin : ∀ t, "*/".toList <:+: w ++ t → "*/".toList <:+: t := fun t =>
      (Text.infix_margin_iff (Embedding.not_mem_gap hw (by decide))).1
    rcases Embedding.infix_framed (by decide) (by decide) hmargin hin with hin | hin | hin | hin
    · exact absurd hin (by decide)
    · exact absurd hin (by decide)
    · obtain ⟨line, hline, hin⟩ := Text.infix_joinLines (by decide) (by decide) hin
      exact h.unclosed line hline hin
    · exact Embedding.not_mem_gap hw (c := '*') (by decide) (hin.subset (by decide))
  have hraw : Head.block.announced? (framed [] w w "mermaid".toList lines) = some (raw w lines) := by
    have hblank : ∀ c ∈ '\n' :: w, c = '*' ∨ isBlank c := by
      intro c hc
      rcases List.mem_cons.1 hc with rfl | hc
      · exact Or.inr (by decide)
      · exact Or.inr (Embedding.isBlank_gap hw c hc)
    have := Marker.leading?_announced (.bare (s := "mermaid".toList) (by decide)) hblank (below w w lines)
    rw [Head.announced?, Head.leading?, Embedding.framed_eq]
    rw [List.cons_append] at this
    rw [List.nil_append, this]
    rfl
  rw [comment_eq, ← List.append_nil "/*".toList]
  exact Embedding.candidates_framed hw (d := CommentStyle.blockDelimiters) rfl rfl (by decide) (by decide)
    (Embedding.isBlank_gap hw) habsent hraw

theorem count_newline_comment (h : Lines lines) : (comment w lines).count '\n' = lines.length + 2 := by
  have hgap := Embedding.newline_not_mem_gap hw
  rw [comment_eq, Embedding.count_newline_framed]
  exact Embedding.newline_not_mem_frame (by simp [hgap]) hgap (by simp [hgap]) (by decide) h.one_line

/-! ## Its body -/

theorem isBlank_indented (h : ∀ line ∈ lines, ∀ c ∈ line, isBlank c) :
    ∀ line ∈ lines.map (w ++ ·), ∀ c ∈ line, isBlank c := by
  intro line hline c hc
  obtain ⟨l, hl, rfl⟩ := List.mem_map.1 hline
  rcases List.mem_append.1 hc with hc | hc
  · exact Embedding.isBlank_gap hw c hc
  · exact h l hl c hc

theorem raw_blank (h : ∀ line ∈ lines, ∀ c ∈ line, isBlank c) : raw w lines = [] := by
  have hblank : ∀ line ∈ lines.map (w ++ ·), ∀ c ∈ line, isBlank c := isBlank_indented hw h
  rw [raw, below, Text.trimStart_joinLines_blank hblank (List.cons_ne_nil _ _), Text.joinLines_singleton]
  exact List.dropWhile_eq_nil_iff.2 (Embedding.isBlank_gap hw)

/-- The first line that is not blank loses its indentation, those below it keep theirs and the margin. -/
theorem raw_eq {blank : List Text} {first : Text} {rest : List Text} (hblank : ∀ line ∈ blank, ∀ c ∈ line, isBlank c)
    (hfirst : ¬ ∀ c ∈ first, isBlank c) :
    raw w (blank ++ first :: rest) = joinLines (trimStart first :: (rest ++ [[]]).map (w ++ ·)) := by
  have hfirst' : ¬ ∀ c ∈ w ++ first, isBlank c := fun h => hfirst fun c hc => h c (List.mem_append_right w hc)
  rw [raw, below, List.map_append, List.append_assoc,
    Text.trimStart_joinLines_blank (isBlank_indented hw hblank) (by simp), List.map_cons, List.cons_append,
    Text.trimStart_joinLines_cons hfirst', Text.trimStart_append (Embedding.isBlank_gap hw), List.map_append,
    List.map_singleton, List.append_nil]

theorem strip_indented {line : Text} (h : (trimStart line).head? ≠ some '*') :
    trimEnd (CommentStyle.block.strip (w ++ line)) = indent w (trimEnd line) := by
  have hunsigned : ¬ ['*'] <+: trimStart (w ++ line) := by
    rw [Text.trimStart_append (Embedding.isBlank_gap hw)]
    rintro ⟨t, ht⟩
    exact h (by rw [← ht]; rfl)
  rw [CommentStyle.strip, CommentStyle.stripSign_unsigned hunsigned,
    Text.trimEnd_indented (Embedding.isBlank_gap hw)]

theorem clean_raw_eq {blank : List Text} {first : Text} {rest : List Text} (h : Lines (blank ++ first :: rest))
    (hblank : ∀ line ∈ blank, ∀ c ∈ line, isBlank c) (hfirst : ¬ ∀ c ∈ first, isBlank c) :
    Diagram.clean CommentStyle.block.strip (raw w (blank ++ first :: rest)) =
      hang w (Diagram.extract (first.trim :: (rest ++ [[]]).map trimEnd)) := by
  have hrest : ∀ line ∈ rest ++ [[]], '\n' ∉ line ∧ (trimStart line).head? ≠ some '*' := by
    intro line hline
    rcases List.mem_append.1 hline with hline | hline
    · exact ⟨h.one_line line (by simp [hline]), h.unstarred line (by simp [hline])⟩
    · obtain rfl := List.mem_singleton.1 hline
      exact ⟨by simp, by decide⟩
  have hone : ∀ line ∈ trimStart first :: (rest ++ [[]]).map (w ++ ·), '\n' ∉ line := by
    refine List.forall_mem_cons.2 ⟨Text.not_mem_trimStart (h.one_line first (by simp)), fun line hline => ?_⟩
    obtain ⟨l, hl, rfl⟩ := List.mem_map.1 hline
    simp [Embedding.newline_not_mem_gap hw, (hrest l hl).1]
  have hhead : trimEnd (CommentStyle.block.strip (trimStart first)) = first.trim := by
    rw [CommentStyle.strip, CommentStyle.stripSign_unsigned, Text.trim]
    rw [Text.trimStart_trimStart]
    rintro ⟨t, ht⟩
    exact h.unstarred first (by simp) (by rw [← ht]; rfl)
  have htail : ((rest ++ [[]]).map (w ++ ·)).map (fun line => trimEnd (CommentStyle.block.strip line)) =
      ((rest ++ [[]]).map trimEnd).map (indent w) := by
    rw [List.map_map, List.map_map]
    exact List.map_congr_left fun line hline => strip_indented hw (hrest line hline).2
  have hne : first.trim ≠ [] := Text.trim_ne_nil hfirst
  have hnotBlank : ¬ ∀ c ∈ first.trim, isBlank c := fun hall => hne <| by
    rw [← Text.trimStart_trim]
    exact List.dropWhile_eq_nil_iff.2 hall
  -- the first line is flush, so dedenting takes nothing off those below it
  rw [Diagram.clean, raw_eq hw hblank hfirst, Text.splitLines_joinLines (List.cons_ne_nil _ _) hone, List.map_cons,
    hhead, htail, Text.dedent_flush (Text.trimStart_trim first) hne]
  refine Diagram.extract_hang (Embedding.isBlank_gap hw) hnotBlank ?_ ?_
  · refine List.forall_mem_cons.2 ⟨Text.trimEnd_trimEnd _, fun line hline => ?_⟩
    obtain ⟨l, -, rfl⟩ := List.mem_map.1 hline
    exact Text.trimEnd_trimEnd l
  · refine List.forall_mem_cons.2 ⟨Text.not_mem_trim (h.one_line first (by simp)), fun line hline => ?_⟩
    obtain ⟨l, hl, rfl⟩ := List.mem_map.1 hline
    exact Text.not_mem_trimEnd (hrest l hl).1

/-- **The diagram of the comment hangs below the margin.** -/
theorem clean_raw (h : Lines lines) : Diagram.clean CommentStyle.block.strip (raw w lines) =
    hang w (Diagram.clean CommentStyle.block.strip (raw [] lines)) := by
  have hnone : ∀ c ∈ ([] : Text), c = ' ' ∨ c = '\t' := by simp
  rcases blank_or_exists lines with hblank | ⟨blank, first, rest, rfl, hblank, hfirst⟩
  · rw [raw_blank hw hblank, raw_blank hnone hblank, Text.hang_of_not_mem]
    decide
  · rw [clean_raw_eq hw h hblank hfirst, clean_raw_eq hnone h hblank hfirst, Text.hang_nil]

/-! ## Its block -/

/-- **The diagram of the comment is that without a margin, but that it hangs below the margin.** -/
theorem map_markup_raw (h : Lines lines) : (code? .block (raw w lines)).map (·.markup) =
    (code? .block (raw [] lines)).map fun code => hang w code.markup := by
  have hplain := congrArg (Option.map (hang w)) (Document.map_markup_code? .block (raw [] lines))
  rw [Option.map_map] at hplain
  rw [Document.map_markup_code?, clean_raw hw h,
    Diagram.isRejected_hang (Embedding.isBlank_gap hw) (Diagram.trim_clean _ _)]
  refine Eq.trans ?_ hplain.symm
  split <;> rfl

theorem findings_comment (h : Lines lines) {language : Language} (hstyles : language.grammar.styles = [.block])
    (hlen : (comment w lines).length ≤ maximumLength) :
    (Document.blocks language.grammar.styles language (comment w lines)).map finding =
      ((code? .block (raw w lines)).map fun code => Finding.mk code 0 (lines.length + 2) language).toList := by
  have hfirst : (comment w lines).lineOf w.byteLength = 0 := by
    rw [comment_eq, Embedding.framed_append_first, Text.lineOf_byteLength,
      List.count_eq_zero_of_not_mem (Embedding.newline_not_mem_gap hw)]
  have hlast : (comment w lines).lineOf (comment w lines).byteLength = lines.length + 2 := by
    have := Text.lineOf_byteLength (comment w lines) []
    rwa [List.append_nil, count_newline_comment hw h] at this
  rw [Document.findings_blocks hlen, hstyles, Document.comments, List.flatMap_singleton, candidates_comment hw h]
  simp only [List.map_cons, List.map_nil, List.filterMap_cons, List.filterMap_nil, Document.finding?, hfirst, hlast]
  cases code? .block (raw w lines) <;> rfl

end Margin

theorem length_comment_le (w : Text) (lines : List Text) : (comment [] lines).length ≤ (comment w lines).length := by
  refine (Text.sublist_joinLines ?_).length_le
  rw [List.forall₂_map_right_iff, List.forall₂_map_left_iff, List.forall₂_same]
  exact fun line _ => List.sublist_append_right w line

/-- One block is the other, but that its diagram hangs below a margin. -/
structure Hangs (w : Text) (plain hung : Block) : Prop where
  code : hung.code.markup = hang w plain.code.markup
  range : hung.range = plain.range
  language : hung.language = plain.language

theorem Hangs.eq_iff {w : Text} {plain hung : Block} (h : Hangs w plain hung) :
    hung = plain ↔ w = [] ∨ '\n' ∉ plain.code.markup := by
  rw [← Text.hang_eq_self_iff plain.code.trimmed, ← h.code]
  obtain ⟨-, hrange, hlanguage⟩ := h
  obtain ⟨⟨markup, _, _⟩, range, language⟩ := plain
  obtain ⟨⟨markup', _, _⟩, range', language'⟩ := hung
  obtain rfl : range' = range := hrange
  obtain rfl : language' = language := hlanguage
  simp

theorem hangs_of_finding {w : Text} {plain hung : Block} {code code' : DiagramCode} {first last : Nat}
    {language : Language} (hplain : finding plain = ⟨code, first, last, language⟩)
    (hhung : finding hung = ⟨code', first, last, language⟩) (hcode : code'.markup = hang w code.markup) :
    Hangs w plain hung := by
  have hblock : finding hung = finding { plain with code := code' } := by
    obtain ⟨-, hfirst, hlast, hlanguage⟩ := Finding.mk.inj hplain
    rw [hhung, finding, hfirst, hlast, hlanguage]
  obtain rfl := Document.finding_injective hblock
  exact ⟨by rw [hcode, ← (Finding.mk.inj hplain).1], rfl, rfl⟩

/-- **An undecorated comment behind a margin.**  If the margin makes the text too long, it is refused.  Otherwise both
parse, to at most one block each: over all the lines of the comment, and behind the margin with a diagram that hangs
below it.  The blocks are equal just if there is no margin or the diagram is on one line. -/
theorem parse_margin {w : Text} {lines : List Text} {language : Language} (hpython : language ≠ .python)
    (hrust : language ≠ .rust) (h : Lines lines) (hw : ∀ c ∈ w, c = ' ' ∨ c = '\t') :
    (maximumLength < (comment w lines).length →
      Document.parse language (String.ofList (comment w lines)) = .error (.tooLong (comment w lines).length)) ∧
    ((comment w lines).length ≤ maximumLength → ∃ found moved,
      Document.parse language (String.ofList (comment [] lines)) = .ok found ∧
      Document.parse language (String.ofList (comment w lines)) = .ok moved ∧
      (∀ block ∈ found, block.range.first.value = 0 ∧ block.range.last.value = lines.length + 2) ∧
      List.Forall₂ (Hangs w) found moved ∧ found.length ≤ 1 ∧
      (moved = found ↔ w = [] ∨ ∀ block ∈ found, '\n' ∉ block.code.markup)) := by
  refine ⟨fun hlong => ?_, fun hlen => ?_⟩
  · rw [Document.parse_ofList, if_neg (Nat.not_le_of_lt hlong)]
  · have hstyles := Language.styles_eq_block hpython hrust
    have hlen' := (length_comment_le w lines).trans hlen
    have hplain := findings_comment (w := []) (by simp) h hstyles hlen'
    have hmoved := findings_comment hw h hstyles hlen
    have hmarkup := map_markup_raw hw h
    refine ⟨_, _, Document.parse_of_length_le language hlen', Document.parse_of_length_le language hlen, ?_⟩
    generalize Document.blocks language.grammar.styles language (comment [] lines) = found at hplain
    generalize Document.blocks language.grammar.styles language (comment w lines) = moved at hmoved
    cases hcode : code? .block (raw [] lines) with
    | none =>
      rw [hcode, Option.map_none, Option.map_eq_none_iff] at hmarkup
      rw [hcode] at hplain
      rw [hmarkup] at hmoved
      obtain rfl := List.map_eq_nil_iff.1 hplain
      obtain rfl := List.map_eq_nil_iff.1 hmoved
      simp
    | some code =>
      rw [hcode, Option.map_some, Option.map_eq_some_iff] at hmarkup
      obtain ⟨code', hcode', hmarkup⟩ := hmarkup
      rw [hcode] at hplain
      rw [hcode'] at hmoved
      obtain ⟨block, rfl, hblock⟩ := List.map_eq_singleton_iff.1 hplain
      obtain ⟨block', rfl, hblock'⟩ := List.map_eq_singleton_iff.1 hmoved
      have hhangs : Hangs w block block' := hangs_of_finding hblock hblock' hmarkup
      obtain ⟨-, hfirst, hlast, -⟩ := Finding.mk.inj hblock
      refine ⟨?_, .cons hhangs .nil, Nat.le_refl 1, ?_⟩
      · simpa using ⟨hfirst, hlast⟩
      · simpa using hhangs.eq_iff

/-- Two lines of a diagram, the second of them indented. -/
def graph : List Text := ["graph TD".toList, "  A --> B".toList]

theorem lines_graph : Lines graph where
  one_line := by decide
  unstarred := by decide
  unclosed line hline h := by
    have hstar : ∀ line ∈ graph, '*' ∉ line := by decide
    exact hstar line hline (h.subset (by decide))

theorem parse_margin_graph : (comment "  ".toList graph).length ≤ maximumLength ∧ Lines graph ∧
    ∃ plain hung, Document.parse .go (String.ofList (comment [] graph)) = .ok [plain] ∧
      Document.parse .go (String.ofList (comment "  ".toList graph)) = .ok [hung] ∧
      plain.code.markup = "graph TD\n  A --> B".toList ∧ hung.code.markup = "graph TD\n    A --> B".toList ∧
      hung.range = plain.range := by
  have hlen : (comment "  ".toList graph).length ≤ maximumLength := by decide
  obtain ⟨found, moved, hfound, hmoved, -, hall, -⟩ :=
    (@parse_margin "  ".toList graph .go (by decide) (by decide) lines_graph (by simp)).2 hlen
  have hmarkup : found.map (·.code.markup) = ["graph TD\n  A --> B".toList] := by
    rw [(Document.parse_eq_ok_iff.1 hfound).2]
    decide +kernel
  obtain ⟨plain, rfl, hplain⟩ := List.map_eq_singleton_iff.1 hmarkup
  obtain ⟨hung, rest, hhangs, hrest, rfl⟩ := List.forall₂_cons_left_iff.1 hall
  obtain rfl := List.forall₂_nil_left_iff.1 hrest
  refine ⟨hlen, lines_graph, plain, hung, hfound, hmoved, hplain, ?_, hhangs.range⟩
  rw [hhangs.code, hplain]
  decide

/-- **A margin of two spaces is kept**: the diagram is not the one without, though the comment only moved. -/
theorem margin_kept : Lines graph ∧ (∀ c ∈ "  ".toList, c = ' ' ∨ c = '\t') ∧
    ¬ ∃ found moved, Document.parse .go (String.ofList (comment [] graph)) = .ok found ∧
      Document.parse .go (String.ofList (comment "  ".toList graph)) = .ok moved ∧
      moved.map (fun block => (block.code, block.range)) = found.map (fun block => (block.code, block.range)) := by
  refine ⟨lines_graph, by simp, ?_⟩
  rintro ⟨found, moved, hfound, hmoved, heq⟩
  have hcodes := congrArg (List.map fun block => block.1.markup) heq
  rw [List.map_map, List.map_map, (Document.parse_eq_ok_iff.1 hfound).2,
    (Document.parse_eq_ok_iff.1 hmoved).2] at hcodes
  exact absurd hcodes (by decide +kernel)

end Undecorated

end Marginalia
