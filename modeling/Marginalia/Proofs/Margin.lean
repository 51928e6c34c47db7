import Marginalia.Proofs.Diagram.Hanging
import Marginalia.Proofs.Embedding
import Marginalia.Proofs.Findings
import Marginalia.Proofs.Text.Indentation
/-!
# A whole text behind a margin

Spaces and tabs before every line of a text, blank lines too, move its comments to the right.  Docstrings and runs of
documentation lines say the same as before, on the same lines (`parse_shift`).

A margin is a padding behind the newlines, with one more at the start (`shift_eq_pad`), so the comments begin and end
where they did.  What a docstring holds begins behind the newline of its marker's line, hence with the margin of a whole
line: trimming makes blank lines empty, and of the others the common indentation takes the margin off
(`dedent_map_indent`).  A run loses the margin of each line with the decoration (`stripSign_behind`).  If it ends with a
newline, the margin of the next line is not its own but stands behind it, where it is one more piece of white space
between comments; so the comments correspond up to such pieces (`Notice.Moved`), and no more is needed of them for their
findings to be equal (`findings_shift`).
-/
namespace Marginalia

open Document (Finding finding blocks code? maximumLength)
open Text (indent joinLines mapLines pad splitLines trimStart trimEnd)

/-! ## Texts -/

namespace Text

/-- The text with `w` before each of its lines. -/
def shift (w t : Text) : Text := mapLines (w ++ ·) t

example : shift "  ".toList "graph\n\n  A\n".toList = "  graph\n  \n    A\n  ".toList := by decide

theorem shift_line (w : Text) {line : Text} (h : '\n' ∉ line) (rest : Text) :
    shift w (line ++ '\n' :: rest) = (w ++ line) ++ '\n' :: shift w rest := mapLines_line _ h rest

end Text

section Margin

variable {w : Text} (hw : ∀ c ∈ w, c = ' ' ∨ c = '\t')

/-- The margin of every line but the first. -/
def Padding.margin : Padding := .behind w (Embedding.blank_in_line hw)

namespace Text

/-- **A margin is a padding behind the newlines**, and one more before the first line. -/
theorem shift_eq_pad (t : Text) : shift w t = w ++ pad (.margin hw) t := by
  induction t using lines_induction with
  | last t h => rw [shift, mapLines_last _ h, pad_eq_self _ h]
  | line line rest hline ih =>
    rw [shift_line w hline, ih, pad_line _ hline, List.append_assoc]
    rfl

theorem pad_margin_line {line : Text} (h : '\n' ∉ line) (rest : Text) :
    pad (.margin hw) (line ++ '\n' :: rest) = line ++ '\n' :: shift w rest := by
  rw [pad_line _ h, shift_eq_pad hw]
  rfl

include hw

theorem length_le_length_shift (t : Text) : t.length ≤ (shift w t).length := by
  have := length_le_length_pad (.margin hw) t
  rw [shift_eq_pad hw, List.length_append]
  omega

theorem newline_not_mem_shifted (line : Text) (h : '\n' ∉ line) : '\n' ∉ w ++ line := by
  simp [Embedding.newline_not_mem_gap hw, h]

theorem newline_not_mem_indent (line : Text) (h : '\n' ∉ line) : '\n' ∉ indent w line := by
  rcases indent_eq_or w line with heq | heq
  · rwa [heq]
  · rw [heq]
    exact newline_not_mem_shifted hw line h

end Text

/-! ## What the comments hold -/

namespace CommentStyle

include hw

/-- **A docstring holds the same diagram behind a margin.** -/
theorem clean_shift {style : CommentStyle} {d : Delimiters} (henc : style.enclosure? = some (d, .docstring)) (raw : Text) :
    Diagram.clean style.strip (Text.shift w raw) = Diagram.clean style.strip raw := by
  have hstrip : style.strip = fun line => line := by
    cases style <;> first | rfl | cases henc
  have hlines : (splitLines (Text.shift w raw)).map trimEnd = ((splitLines raw).map trimEnd).map (indent w) := by
    rw [Text.shift, Text.splitLines_mapLines (Text.newline_not_mem_shifted hw), List.map_map, List.map_map]
    exact List.map_congr_left fun line _ => Text.trimEnd_indented (Embedding.isBlank_gap hw) line
  rw [hstrip, Diagram.clean, Diagram.clean, hlines, Text.dedent_map_indent (Embedding.isBlank_gap hw)]
  intro line hline
  obtain ⟨l, -, rfl⟩ := List.mem_map.1 hline
  exact Text.trimEnd_trimEnd l

omit hw in
theorem stripSign_behind {sign gap line : Text} (hgap : ∀ c ∈ gap, isBlank c) (h : sign <+: trimStart line) :
    stripSign sign (gap ++ line) = stripSign sign line := by
  obtain ⟨inside, hinside⟩ := h
  rw [stripSign_signed ((Text.trimStart_append hgap).trans hinside.symm), stripSign_signed hinside.symm]

end CommentStyle

namespace DocRun

include hw

theorem beginsLine_behind (t : Text) : beginsLine (w ++ t) = beginsLine t := by
  rw [beginsLine, beginsLine, List.dropWhile_append_of_pos fun c hc => isGap_iff.2 (hw c hc)]

theorem beginsLine_shift (t : Text) : beginsLine (Text.shift w t) = beginsLine t := by
  by_cases hmem : '\n' ∈ t
  · obtain ⟨line, rest, rfl, hline⟩ := List.eq_append_cons_of_mem hmem
    rw [Text.shift_line w hline, beginsLine_line, beginsLine_line, beginsLine_behind hw]
  · rw [Text.shift, Text.mapLines_last _ hmem, beginsLine_behind hw]

omit hw

theorem indent_of_beginsLine {line : Text} (h : beginsLine line = true) (w : Text) : indent w line = w ++ line := by
  refine if_neg ?_
  rintro rfl
  cases h

theorem sign_of_beginsLine {line : Text} (h : beginsLine line = true) : sign <+: trimStart line := by
  obtain ⟨gap, rest, hgap, rfl⟩ := beginsLine_iff.1 h
  rw [Text.trimStart_append (Embedding.isBlank_gap hgap)]
  exact List.prefix_append sign rest

/-- The lines of a run are of documentation; behind the newline of the last one, there is an empty line. -/
theorem splitLines_run (t : Text) : ∀ line ∈ splitLines (run t).1, line = [] ∨ beginsLine line = true := by
  by_cases hne : (run t).1 = []
  · rw [hne]
    exact List.forall_mem_singleton.2 (Or.inl rfl)
  · obtain ⟨lines, hlines, hall, hraw⟩ := @run_lines t (run t).1 (run t).2 rfl hne
    have hsplit : splitLines (joinLines lines) = lines :=
      Text.splitLines_joinLines hlines fun line hline => (hall line hline).1
    intro line hline
    rcases hraw with ⟨hraw, -⟩ | hraw
    · rw [hraw, hsplit] at hline
      exact Or.inr (hall line hline).2
    · rw [hraw, Text.splitLines_append_newline, hsplit] at hline
      rcases List.mem_append.1 hline with hline | hline
      · exact Or.inr (hall line hline).2
      · exact Or.inl (List.mem_singleton.1 hline)

include hw

/-- **A run holds the same diagram behind a margin.** -/
theorem clean_inset (t : Text) : Diagram.clean CommentStyle.docRun.strip (mapLines (indent w) (run t).1) =
    Diagram.clean CommentStyle.docRun.strip (run t).1 := by
  rw [Diagram.clean, Diagram.clean, Text.splitLines_mapLines (Text.newline_not_mem_indent hw), List.map_map]
  refine congrArg (fun lines => Diagram.extract (Text.dedent lines)) (List.map_congr_left fun line hline => ?_)
  rcases splitLines_run t line hline with rfl | hbegins
  · rfl
  · rw [Function.comp_apply, indent_of_beginsLine hbegins, CommentStyle.strip,
      CommentStyle.stripSign_behind (Embedding.isBlank_gap hw) (sign_of_beginsLine hbegins)]

/-- **A run behind a margin is the run**, with a margin before its lines.  What follows begins with the margin of its
first line if the run ended with a newline. -/
theorem run_shift (t : Text) : ∃ gap, (gap = [] ∨ gap = w) ∧
    run (Text.shift w t) = (mapLines (indent w) (run t).1, gap ++ pad (.margin hw) (run t).2) := by
  have hnot : ∀ t, beginsLine t = false → ∃ gap, (gap = [] ∨ gap = w) ∧
      run (Text.shift w t) = (mapLines (indent w) (run t).1, gap ++ pad (.margin hw) (run t).2) := fun t hbegins => by
    refine ⟨w, Or.inr rfl, ?_⟩
    rw [run_not hbegins, run_not (by rwa [beginsLine_shift hw]), Text.shift_eq_pad hw]
    rfl
  induction t using Text.lines_induction with
  | last t h =>
    cases hbegins : beginsLine t with
    | true =>
      have hlast : run (Text.shift w t) = (w ++ t, []) := by
        rw [Text.shift, Text.mapLines_last _ h]
        exact run_last (Text.newline_not_mem_shifted hw t h) (by rwa [beginsLine_behind hw])
      refine ⟨[], Or.inl rfl, ?_⟩
      rw [hlast, run_last h hbegins, Text.mapLines_last _ h, indent_of_beginsLine hbegins]
      rfl
    | false => exact hnot t hbegins
  | line line rest hline ih =>
    cases hbegins : beginsLine line with
    | true =>
      obtain ⟨gap, hgap, hrun⟩ := ih
      refine ⟨gap, hgap, ?_⟩
      rw [Text.shift_line w hline, run_line (Text.newline_not_mem_shifted hw line hline)
        (by rwa [beginsLine_behind hw]), run_line hline hbegins, hrun, Text.mapLines_line _ hline,
        indent_of_beginsLine hbegins]
    | false => exact hnot _ (by rwa [beginsLine_line])

end DocRun

/-! ## The comments -/

theorem DocRun.moved_notice? (t : Text) :
    Option.Rel (Notice.Moved .docRun (.margin hw)) (notice? t) (notice? (pad (.margin hw) t)) := by
  by_cases hmem : '\n' ∈ t
  · obtain ⟨line, below, rfl, hline⟩ := List.eq_append_cons_of_mem hmem
    obtain ⟨gap, hgap, hrun⟩ := run_shift hw below
    have hempty : mapLines (indent w) (run below).1 ≠ [] ↔ (run below).1 ≠ [] :=
      not_congr (Text.mapLines_eq_nil_iff (Text.indent_eq_nil_iff w))
    rw [Text.pad_margin_line hw hline, notice?_line hline, notice?_line hline, hrun]
    dsimp only
    simp only [hempty]
    split
    · refine .some ⟨?_, ?_, gap, ?_, rfl⟩
      · exact Document.code?_congr (clean_inset hw below)
      · rw [List.count_append, List.count_append, List.count_cons_self, List.count_cons_self,
          Text.count_newline_mapLines (Text.newline_not_mem_indent hw)]
      · rcases hgap with rfl | rfl
        · exact List.forall_mem_nil _
        · exact Embedding.blank_in_line hw
    · exact .none
  · rw [Text.pad_eq_self _ hmem, notice?_last hmem]
    exact .none

namespace CommentStyle

variable {style : CommentStyle}

theorem moved_docstring? {d : Delimiters} (henc : style.enclosure? = some (d, .docstring)) (t : Text) :
    Option.Rel (Notice.Moved style (.margin hw)) (style.notice? t) (style.notice? (pad (.margin hw) t)) := by
  have hraw : ∀ raw, Head.docstring.heldIn (.margin hw) raw = Text.shift w raw := fun raw =>
    (Text.shift_eq_pad hw raw).symm
  obtain ⟨hopener, hcloser⟩ := isBlank_enclosure henc
  refine @moved_of_pad style (.margin hw) (Head.docstring.heldIn (.margin hw)) (fun raw => ?_) t ?_
  · rw [hraw]
    exact Document.code?_congr (clean_shift hw henc raw)
  · rw [notice?_enclosed henc, notice?_enclosed henc, Delimiters.notice?_pad _ hopener hcloser]

/-- **Each docstring and each run is moved with the text.** -/
theorem moved_notice? (hstyle : style ≠ .block) (t : Text) :
    Option.Rel (Notice.Moved style (.margin hw)) (style.notice? t) (style.notice? (pad (.margin hw) t)) := by
  cases style with
  | block => exact absurd rfl hstyle
  | doubleQuoted => exact moved_docstring? hw rfl t
  | singleQuoted => exact moved_docstring? hw rfl t
  | docRun => exact DocRun.moved_notice? hw t

include hw

theorem findings_shift (hstyle : style ≠ .block) (language : Language) (t : Text) :
    style.findings language (Text.shift w t) = style.findings language t := by
  have hfirst : ([] ++ w).count '\n' = 0 := List.count_eq_zero_of_not_mem (Embedding.newline_not_mem_gap hw)
  rw [findings, findings, Text.shift_eq_pad hw, sightings_append_blank (Embedding.isBlank_gap hw)]
  exact filterMap_finding?_moved (moved_notice? hw hstyle) language hfirst t

end CommentStyle

/-! ## The blocks -/

include hw

theorem Document.blocks_shift {t : Text} (hlen : (Text.shift w t).length ≤ maximumLength) {styles : List CommentStyle}
    (hstyles : .block ∉ styles) (language : Language) :
    blocks styles language (Text.shift w t) = blocks styles language t := by
  refine blocks_congr ((Text.length_le_length_shift hw t).trans hlen) hlen fun style hstyle => ?_
  exact CommentStyle.findings_shift hw (ne_of_mem_of_not_mem hstyle hstyles) language t

/-- **A margin before the whole text changes no docstring and no run of documentation lines.**  The blocks of a rust text
are those of its other comments and then those of its runs, and only the former may change. -/
theorem parse_shift {t : Text} (hlen : (Text.shift w t).length ≤ maximumLength) :
    (∃ found, Document.parse .python (String.ofList t) = .ok found ∧
      Document.parse .python (String.ofList (Text.shift w t)) = .ok found) ∧
    ∃ above moved runs, Document.parse .rust (String.ofList t) = .ok (above ++ runs) ∧
      Document.parse .rust (String.ofList (Text.shift w t)) = .ok (moved ++ runs) ∧
      above = blocks [.block] .rust t ∧ moved = blocks [.block] .rust (Text.shift w t) ∧
      runs = blocks [.docRun] .rust t ∧ runs = blocks [.docRun] .rust (Text.shift w t) := by
  have hlen' : t.length ≤ maximumLength := (Text.length_le_length_shift hw t).trans hlen
  constructor
  · refine ⟨blocks [.doubleQuoted, .singleQuoted] .python t, Document.parse_of_length_le .python hlen', ?_⟩
    rw [Document.parse_of_length_le .python hlen]
    exact congrArg Except.ok (Document.blocks_shift hw hlen (by decide) .python)
  · have hruns := @Document.blocks_shift w hw t hlen [.docRun] (by decide) .rust
    refine ⟨_, _, blocks [.docRun] .rust t, ?_, ?_, rfl, rfl, rfl, hruns.symm⟩
    · rw [Document.parse_of_length_le .rust hlen', ← Document.blocks_pair]
      rfl
    · rw [Document.parse_of_length_le .rust hlen, ← hruns, ← Document.blocks_pair]
      rfl

end Margin

/-- A docstring and a run of documentation lines, with a blank line in the first and a newline behind the second. -/
def sheet : Text :=
  "'''\nmermaid\ngraph TD\n\n  A --> B\n'''\n//! mermaid\n//! pie\n//!   \"A\": 1\n".toList

theorem parse_shift_sheet : (∀ c ∈ " \t".toList, c = ' ' ∨ c = '\t') ∧
    (Text.shift " \t".toList sheet).length ≤ maximumLength ∧
    (∃ found, Document.parse .python (String.ofList sheet) = .ok found ∧
      Document.parse .python (String.ofList (Text.shift " \t".toList sheet)) = .ok found ∧
      found.map (fun block => (block.code.markup, block.range.first.value, block.range.last.value)) =
        [("graph TD\n\n  A --> B".toList, 0, 5)]) ∧
    ∃ above moved runs, Document.parse .rust (String.ofList sheet) = .ok (above ++ runs) ∧
      Document.parse .rust (String.ofList (Text.shift " \t".toList sheet)) = .ok (moved ++ runs) ∧
      runs.map (fun block => (block.code.markup, block.range.first.value, block.range.last.value)) =
        [("pie\n  \"A\": 1".toList, 6, 9)] := by
  have hw : ∀ c ∈ " \t".toList, c = ' ' ∨ c = '\t' := by simp
  have hlen : (Text.shift " \t".toList sheet).length ≤ maximumLength := by decide +kernel
  obtain ⟨⟨found, hplain, hshift⟩, above, moved, runs, hplain', hshift', -, -, rfl, -⟩ := parse_shift hw hlen
  refine ⟨hw, hlen, ⟨found, hplain, hshift, ?_⟩, above, moved, _, hplain', hshift', by decide +kernel⟩
  rw [(Document.parse_eq_ok_iff.1 hplain).2]
  decide +kernel

end Marginalia
