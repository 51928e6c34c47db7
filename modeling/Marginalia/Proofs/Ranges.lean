import Marginalia.Proofs.Concatenation
import Marginalia.Proofs.Tracing
/-!
# The lines that blocks take

The range of a block is that of its whole comment, counted in newlines (`Document.exists_candidate`).  A delimiter holds
no newline, so a comment between delimiters touches exactly the lines of its range (`Encloses`).  The newline of the last
line of a documentation run belongs to the run, so its range reaches to the line behind it (`Runs`).  Both say where a
comment ends, and the comments of a style follow one another, so their ranges do, with no more than one line in common
(`CommentStyle.inOrder`).
-/
namespace Marginalia

open Document (blocks block? blockAt? finding maximumLength)
open Text (joinLines splitLines)

/-! ## Lines and offsets -/

namespace Text

/-- All of a piece without newlines is on one line, its end included. -/
theorem lineOf_piece {before piece after : Text} (h : '\n' ∉ piece) {offset : Nat} (hlow : before.byteLength ≤ offset)
    (hhigh : offset ≤ (before ++ piece).byteLength) :
    lineOf (before ++ (piece ++ after)) offset = before.count '\n' := by
  have hstart := lineOf_byteLength before (piece ++ after)
  have hstop := lineOf_byteLength (before ++ piece) after
  rw [List.append_assoc, List.count_append, List.count_eq_zero_of_not_mem h, Nat.add_zero] at hstop
  rw [lineOf_eq_of_between hlow hhigh (hstart.trans hstop.symm), hstart]

/-- **A piece of a text touches the lines from that of its start to that of its end**, if it does not end with a newline. -/
theorem touches_iff {before piece last after : Text} (hne : last ≠ []) (hlast : '\n' ∉ last) (line : Nat) :
    (before.count '\n' ≤ line ∧ line ≤ (before ++ (piece ++ last)).count '\n') ↔
      ∃ offset, before.byteLength ≤ offset ∧ offset < (before ++ (piece ++ last)).byteLength ∧
        lineOf (before ++ ((piece ++ last) ++ after)) offset = line := by
  have hstart := lineOf_byteLength before ((piece ++ last) ++ after)
  have hstop := lineOf_byteLength (before ++ (piece ++ last)) after
  rw [List.append_assoc] at hstop
  constructor
  · rintro ⟨hlow, hhigh⟩
    have hpiece : line - before.count '\n' ≤ piece.count '\n' := by
      rw [List.count_append, List.count_append, List.count_eq_zero_of_not_mem hlast] at hhigh
      omega
    obtain ⟨p, q, rfl, hp⟩ := exists_prefix_count piece hpiece
    have hpos : 0 < last.byteLength := Nat.lt_of_lt_of_le (List.length_pos_iff.2 hne) (length_le_byteLength last)
    refine ⟨(before ++ p).byteLength, ?_, ?_, ?_⟩
    · rw [byteLength_append]
      omega
    · simp only [byteLength_append]
      omega
    · have hline := lineOf_byteLength (before ++ p) (q ++ last ++ after)
      rw [List.count_append, hp] at hline
      simp only [List.append_assoc] at hline ⊢
      omega
  · rintro ⟨offset, hlow, hhigh, rfl⟩
    constructor
    · rw [← hstart]
      exact lineOf_mono _ hlow
    · rw [← hstop]
      exact lineOf_mono _ (Nat.le_of_lt hhigh)

end Text

/-! ## Where a block's comment stands -/

namespace Document

/-- **A block is made from a candidate**, which stands in the text as one of its comments does, and takes its lines. -/
theorem exists_candidate {t : Text} (hlen : t.length ≤ maximumLength) {styles : List CommentStyle} {language : Language}
    {block : Block} (h : block ∈ blocks styles language t) :
    ∃ style ∈ styles, ∃ s ∈ style.sightings [] t, block? language style (LineIndex.ofText t) s.candidate = some block ∧
      block.range.first.value = s.before.count '\n' ∧ block.range.last.value = (s.before ++ s.whole).count '\n' := by
  obtain ⟨style, hstyle, hblock⟩ := List.mem_flatMap.1 h
  obtain ⟨c, hc, hread⟩ := List.mem_filterMap.1 hblock
  have hlt := CommentStyle.start_lt_stop c hc
  rw [CommentStyle.candidates_eq_map_sightings] at hc
  obtain ⟨s, hs, rfl⟩ := List.mem_map.1 hc
  refine ⟨style, hstyle, s, hs, hread, ?_⟩
  rw [block?_eq] at hread
  obtain ⟨code, -, hcode⟩ := Option.bind_eq_some_iff.1 hread
  obtain ⟨range, hrange, rfl⟩ := Option.map_eq_some_iff.1 hcode
  obtain ⟨range', hrange', hfirst, hlast⟩ := range?_ofText hlen hlt
  obtain rfl := Option.some.inj (hrange.symm.trans hrange')
  obtain ⟨hstart, hstop⟩ := CommentStyle.lineOf_candidate hs []
  rw [List.append_nil] at hstart hstop
  exact ⟨hfirst.trans hstart, hlast.trans hstop⟩

end Document

/-- How the lines of a range lie on a comment between delimiters that stands behind `before` in a text: the opener is on
the first line, the closer on the last one, and the comment touches these, those between them and no others. -/
structure Encloses (d : Delimiters) (t before comment : Text) (first last : Nat) : Prop where
  parts : ∃ body, comment = d.opener ++ (body ++ d.closer) ∧
    (∀ offset, before.byteLength ≤ offset → offset < (before ++ d.opener).byteLength → t.lineOf offset = first) ∧
    (∀ offset, (before ++ (d.opener ++ body)).byteLength ≤ offset → offset < (before ++ comment).byteLength →
      t.lineOf offset = last)
  touched : ∀ line, (first ≤ line ∧ line ≤ last) ↔
    ∃ offset, before.byteLength ≤ offset ∧ offset < (before ++ comment).byteLength ∧ t.lineOf offset = line

/-- How the lines of a range lie on a run of documentation lines that stands between `before` and `after` in a text: the
marker is on the first line and the documentation lines on the lines below it.  The last of them is on the last line of
the range if the text ends there without a newline, and else on the line above that. -/
def Runs (t before comment after : Text) (first last : Nat) : Prop :=
  ∃ marker lines, DocRun.isMarkerLine marker = true ∧ lines ≠ [] ∧
    (∀ line ∈ lines, '\n' ∉ line ∧ DocRun.beginsLine line = true) ∧ DocRun.beginsLine after = false ∧
    (∀ offset, before.byteLength ≤ offset → offset ≤ (before ++ marker).byteLength → t.lineOf offset = first) ∧
    (∀ k line, lines[k]? = some line → t.splitLines[first + 1 + k]? = some line) ∧
    (comment = marker ++ '\n' :: joinLines lines ∧ after = [] ∧ last = first + lines.length ∨
      comment = marker ++ '\n' :: (joinLines lines ++ ['\n']) ∧ last = first + lines.length + 1)

namespace CommentStyle

variable {style : CommentStyle}

theorem newline_not_mem_enclosure {d : Delimiters} {head : Head} (h : style.enclosure? = some (d, head)) :
    '\n' ∉ d.opener ∧ '\n' ∉ d.closer := by
  cases style <;> cases h <;> decide

theorem encloses {d : Delimiters} {head : Head} (henc : style.enclosure? = some (d, head)) {before comment raw after : Text}
    (h : style.notice? (comment ++ after) = some ⟨comment, raw, after⟩) :
    Encloses d (before ++ (comment ++ after)) before comment (before.count '\n') ((before ++ comment).count '\n') := by
  obtain ⟨hopener, hcloser⟩ := newline_not_mem_enclosure henc
  rw [notice?_enclosed henc] at h
  obtain ⟨inside, body, -, -, -, hwhole⟩ := Delimiters.notice?_eq_some_iff.1 h
  obtain rfl : comment = d.opener ++ (body ++ d.closer) := hwhole
  refine ⟨⟨body, rfl, fun offset hlow hhigh => ?_, fun offset hlow hhigh => ?_⟩, fun line => ?_⟩
  · rw [List.append_assoc d.opener]
    exact Text.lineOf_piece hopener hlow (Nat.le_of_lt hhigh)
  · have hhigh' : offset ≤ (before ++ (d.opener ++ body) ++ d.closer).byteLength := by
      simpa only [List.append_assoc] using Nat.le_of_lt hhigh
    have hline := @Text.lineOf_piece (before ++ (d.opener ++ body)) d.closer after hcloser offset hlow hhigh'
    simp only [List.append_assoc, List.count_append, List.count_eq_zero_of_not_mem hcloser] at hline ⊢
    omega
  · have htouches := @Text.touches_iff before (d.opener ++ body) d.closer after d.closer_ne_nil hcloser line
    simpa only [List.append_assoc] using htouches

theorem runs {before comment raw after : Text} (h : docRun.notice? (comment ++ after) = some ⟨comment, raw, after⟩) :
    Runs (before ++ (comment ++ after)) before comment after (before.count '\n') ((before ++ comment).count '\n') := by
  obtain ⟨marker, hmarker, hmark, -, hrun, hraw, hwhole⟩ := DocRun.notice?_eq_some_iff.1 h
  obtain rfl : comment = marker ++ '\n' :: raw := hwhole
  obtain ⟨lines, hlines, hall, hform⟩ := DocRun.run_lines hrun hraw
  have hafter : DocRun.beginsLine after = false := by
    have := DocRun.beginsLine_run (raw ++ after)
    rwa [hrun] at this
  have hcount : (joinLines lines).count '\n' + 1 = lines.length := by
    have hpos := List.length_pos_iff.2 hlines
    rw [Text.count_newline_joinLines hlines fun line hline => (hall line hline).1]
    omega
  have hjoined : splitLines (joinLines lines) = lines :=
    Text.splitLines_joinLines hlines fun line hline => (hall line hline).1
  obtain ⟨rest, hrest⟩ : ∃ rest, splitLines (raw ++ after) = lines ++ rest := by
    rcases hform with ⟨rfl, rfl⟩ | rfl
    · exact ⟨[], by rw [List.append_nil, List.append_nil, hjoined]⟩
    · refine ⟨splitLines after, ?_⟩
      rw [List.append_assoc, List.singleton_append, Text.splitLines_append_newline, hjoined]
  have hsplit : splitLines (before ++ ((marker ++ '\n' :: raw) ++ after)) =
      splitLines (before ++ marker) ++ (lines ++ rest) := by
    rw [← hrest, ← Text.splitLines_append_newline, List.append_assoc, List.append_assoc, List.cons_append]
  refine ⟨marker, lines, hmark, hlines, hall, hafter, fun offset hlow hhigh => ?_, fun k line hk => ?_, ?_⟩
  · rw [List.append_assoc marker]
    exact Text.lineOf_piece hmarker hlow hhigh
  · obtain ⟨hlt, -⟩ := List.getElem?_eq_some_iff.1 hk
    have hlength : (splitLines (before ++ marker)).length = before.count '\n' + 1 := by
      rw [Text.length_splitLines, List.count_append, List.count_eq_zero_of_not_mem hmarker, Nat.add_zero]
    rw [hsplit, List.getElem?_append_right (by omega), hlength, Nat.add_sub_cancel_left, List.getElem?_append_left hlt, hk]
  · have hmarkers : marker.count '\n' = 0 := List.count_eq_zero_of_not_mem hmarker
    rcases hform with ⟨rfl, rfl⟩ | rfl
    · refine Or.inl ⟨rfl, rfl, ?_⟩
      rw [List.count_append, List.count_append, List.count_cons_self]
      omega
    · refine Or.inr ⟨rfl, ?_⟩
      rw [List.count_append, List.count_append, List.count_cons_self, List.count_append, List.count_singleton_self]
      omega

end CommentStyle

/-! ## The order of ranges -/

/-- Each block ends at the latest on the line on which the next ones start. -/
def InOrder (found : List Block) : Prop := found.Pairwise fun a b => a.range.last ≤ b.range.first

/-- **The blocks of one style are in order.** -/
theorem CommentStyle.inOrder (style : CommentStyle) (language : Language) {t : Text} (hlen : t.length ≤ maximumLength) :
    InOrder (blocks [style] language t) := by
  have hfindings : (style.findings language t).Pairwise fun a b => a.last ≤ b.first := by
    refine (style.pairwise_sightings [] t).filterMap _ fun a b hab x hx y hy => ?_
    obtain ⟨code, -, rfl⟩ := Option.map_eq_some_iff.1 hx
    obtain ⟨code', -, rfl⟩ := Option.map_eq_some_iff.1 hy
    exact hab.sublist.count_le '\n'
  rw [← Document.findings_style hlen, List.pairwise_map] at hfindings
  exact hfindings

/-- The look-up finds the first block that contains the line. -/
theorem Document.blockAt?_of_first {earlier later : List Block} {block : Block} {line : LineNumber}
    (hearlier : ∀ b ∈ earlier, b.range.contains line = false) (hblock : block.range.contains line = true) :
    blockAt? (earlier ++ block :: later) line = some block := by
  unfold blockAt?
  rw [List.find?_append, List.find?_eq_none.2 fun b hb => by simp [hearlier b hb], Option.none_or]
  exact List.find?_cons_of_pos hblock

theorem LineRange.contains_iff {range : LineRange} {line : LineNumber} :
    range.contains line = true ↔ range.first ≤ line ∧ line ≤ range.last := by
  unfold LineRange.contains
  rw [Bool.and_eq_true, decide_eq_true_eq, decide_eq_true_eq]

/-- **Inside its range a block is found**, where the blocks are in order. -/
theorem InOrder.blockAt?_inside {earlier later : List Block} {block : Block} (h : InOrder (earlier ++ block :: later))
    {line : LineNumber} (hfirst : block.range.first.value < line.value) (hlast : line ≤ block.range.last) :
    blockAt? (earlier ++ block :: later) line = some block := by
  refine Document.blockAt?_of_first (fun b hb => ?_) (LineRange.contains_iff.2 ⟨Nat.le_of_lt hfirst, hlast⟩)
  have hbefore : b.range.last ≤ block.range.first := (List.pairwise_append.1 h).2.2 b hb block List.mem_cons_self
  refine Bool.eq_false_iff.2 fun hcontains => ?_
  have hline : line ≤ b.range.last := (LineRange.contains_iff.1 hcontains).2
  exact Nat.not_lt_of_le (Nat.le_trans hline hbefore) hfirst

/-! ## Blocks -/

/-- **Ranges are exact.**  Every block is made from a candidate, and its range goes from the number of newlines before
the comment to the number of newlines before its end, so to the number of newlines in the text at most.  A comment
between delimiters touches exactly these lines, from that of its opener to that of its closer; a run of documentation
lines begins with its marker on the first one and ends on the last one or, with its newline, above it. -/
theorem parse_ranges {language : Language} {t : Text} {found : List Block}
    (h : Document.parse language (String.ofList t) = .ok found) : ∀ block ∈ found,
      ∃ style ∈ language.grammar.styles, ∃ c ∈ style.candidates t, ∃ before comment after,
        block? language style (LineIndex.ofText t) c = some block ∧
        t = before ++ (comment ++ after) ∧ c.start = before.byteLength ∧ c.stop = (before ++ comment).byteLength ∧
        block.range.first.value = before.count '\n' ∧
        block.range.last.value - block.range.first.value = comment.count '\n' ∧
        block.range.last.value ≤ t.count '\n' ∧
        (∀ d head, style.enclosure? = some (d, head) →
          Encloses d t before comment block.range.first.value block.range.last.value) ∧
        (style = .docRun → Runs t before comment after block.range.first.value block.range.last.value) := by
  obtain ⟨hlen, rfl⟩ := Document.parse_eq_ok_iff.1 h
  intro block hblock
  obtain ⟨style, hstyle, s, hs, hread, hfirst, hlast⟩ := Document.exists_candidate hlen hblock
  obtain ⟨before, comment, raw⟩ := s
  obtain ⟨passed, after, ht, hbefore, hnotice⟩ := CommentStyle.sightings_sound hs
  obtain rfl : before = passed := hbefore
  dsimp only at hfirst hlast ht hnotice
  refine ⟨style, hstyle, _, ?_, before, comment, after, hread, ht, rfl, rfl, hfirst, ?_, ?_, fun d head henc => ?_,
    fun hrun => ?_⟩
  · rw [CommentStyle.candidates_eq_map_sightings]
    exact List.mem_map_of_mem hs
  · rw [hfirst, hlast, List.count_append, Nat.add_sub_cancel_left]
  · rw [hlast, ht, ← List.append_assoc]
    exact (List.prefix_append _ _).sublist.count_le '\n'
  · rw [hfirst, hlast, ht]
    exact CommentStyle.encloses henc hnotice
  · subst hrun
    rw [hfirst, hlast, ht]
    exact CommentStyle.runs hnotice

/-- A block comment, a run with a line behind it and a run at the end of the text, with characters of several bytes. -/
def shaped : Text :=
  "/* é\n@mermaid\npie */ ß\nü //! mermaid\n//! gantt\n//! 日本\n--\n//!mermaid:\n  //!graph TD".toList

theorem parse_ranges_shaped : ∃ found, Document.parse .rust (String.ofList shaped) = .ok found ∧
    found.map (fun block => (block.range.first.value, block.range.last.value)) = [(0, 2), (3, 6), (7, 8)] ∧
    ∀ block ∈ found, ∃ style ∈ Language.rust.grammar.styles, ∃ c ∈ style.candidates shaped, ∃ before comment after,
      block? .rust style (LineIndex.ofText shaped) c = some block ∧
      shaped = before ++ (comment ++ after) ∧ c.start = before.byteLength ∧ c.stop = (before ++ comment).byteLength ∧
      block.range.first.value = before.count '\n' ∧
      block.range.last.value - block.range.first.value = comment.count '\n' ∧
      block.range.last.value ≤ shaped.count '\n' ∧
      (∀ d head, style.enclosure? = some (d, head) →
        Encloses d shaped before comment block.range.first.value block.range.last.value) ∧
      (style = .docRun → Runs shaped before comment after block.range.first.value block.range.last.value) := by
  have hparse := Document.parse_of_length_le .rust (show shaped.length ≤ maximumLength by decide +kernel)
  refine ⟨_, hparse, ?_, parse_ranges hparse⟩
  decide +kernel

/-- **Blocks are reported in the order of the text**, style by style.  With one style of comments, a line strictly inside
a block's range finds that block, and so does its last line unless an earlier block contains it. -/
theorem parse_inOrder {language : Language} {t : Text} {found : List Block}
    (h : Document.parse language (String.ofList t) = .ok found) :
    (language ≠ .python → language ≠ .rust → InOrder found ∧
      ∀ earlier block later, found = earlier ++ block :: later → ∀ line : LineNumber,
        (block.range.first.value < line.value → line.value < block.range.last.value → blockAt? found line = some block) ∧
        (line = block.range.last → (∀ b ∈ earlier, b.range.contains line = false) → blockAt? found line = some block)) ∧
    (language = .python → ∃ double single, found = double ++ single ∧ double = blocks [.doubleQuoted] .python t ∧
      single = blocks [.singleQuoted] .python t ∧ InOrder double ∧ InOrder single) ∧
    (language = .rust → ∃ comments runs, found = comments ++ runs ∧ comments = blocks [.block] .rust t ∧
      runs = blocks [.docRun] .rust t ∧ InOrder comments ∧ InOrder runs) := by
  obtain ⟨hlen, rfl⟩ := Document.parse_eq_ok_iff.1 h
  refine ⟨fun hpython hrust => ?_, ?_, ?_⟩
  · have horder := CommentStyle.block.inOrder language hlen
    rw [Language.styles_eq_block hpython hrust]
    refine ⟨horder, fun earlier block later hfound line => ?_⟩
    rw [hfound] at horder ⊢
    refine ⟨fun hfirst hlast => horder.blockAt?_inside hfirst (Nat.le_of_lt hlast), fun hlast hearlier => ?_⟩
    refine Document.blockAt?_of_first hearlier (LineRange.contains_iff.2 ?_)
    rw [hlast]
    exact ⟨block.range.first_le_last, Nat.le_refl _⟩
  · rintro rfl
    exact ⟨_, _, Document.blocks_pair .., rfl, rfl, CommentStyle.inOrder _ _ hlen, CommentStyle.inOrder _ _ hlen⟩
  · rintro rfl
    exact ⟨_, _, Document.blocks_pair .., rfl, rfl, CommentStyle.inOrder _ _ hlen, CommentStyle.inOrder _ _ hlen⟩

/-- Three comments with blocks, the first two of which share a line, and one without a block between them. -/
def shared : Text :=
  "/* mermaid\npie */ /* mermaid\ngantt\n*/ /* mermaid */\n/* @mermaid mindmap */".toList

theorem parse_inOrder_shared : ∃ first second third,
    Document.parse .javascript (String.ofList shared) = .ok [first, second, third] ∧
    InOrder [first, second, third] ∧ first.range.last = second.range.first ∧
    blockAt? [first, second, third] first.range.last = some first ∧
    blockAt? [first, second, third] ⟨2, by decide⟩ = some second := by
  have hparse := Document.parse_of_length_le .javascript (show shared.length ≤ maximumLength by decide)
  have hranges : (blocks Language.javascript.grammar.styles .javascript shared).map
      (fun b => (b.range.first.value, b.range.last.value)) = [(0, 1), (1, 3), (4, 4)] := by decide +kernel
  obtain ⟨horder, hlookup⟩ := (parse_inOrder hparse).1 (by decide) (by decide)
  generalize blocks Language.javascript.grammar.styles .javascript shared = found at hparse hranges horder hlookup
  obtain ⟨first, second, third, rfl⟩ := List.length_eq_three.1 (by simpa using congrArg List.length hranges)
  simp only [List.map_cons, List.map_nil, List.cons.injEq, Prod.mk.injEq] at hranges
  obtain ⟨⟨-, hfirst⟩, ⟨hsecond, hlast⟩, -⟩ := hranges
  refine ⟨first, second, third, hparse, horder, ?_, ?_, ?_⟩
  · cases h : first.range.last
    cases h' : second.range.first
    simp_all
  · exact (hlookup [] first [second, third] rfl _).2 rfl (by simp)
  · exact (hlookup [first] second [third] rfl ⟨2, by decide⟩).1 (by simp [hsecond]) (by simp [hlast])

end Marginalia
