import Marginalia.Proofs.Comment.Padding
import Marginalia.Proofs.Tracing
/-!
# Carriage returns before newlines

A text whose newlines all have a carriage return before them parses to the blocks of the text without (`parse_crlf`).
The comments are the same ones with such newlines in them (`CommentStyle.moved_crlf`): a comment between delimiters is
padded like any other, and a documentation line may end with a carriage return.  A carriage return at the end of a line
is white space that cleaning trims, decoration or not (`CommentStyle.trimEnd_strip_concat`), so their codes are equal;
and their lines are counted in newlines alone.
-/
namespace Marginalia

open Document (Finding finding blocks code? maximumLength)
open Text (crlf pad trimStart trimEnd splitLines)

/-! ## The comments -/

namespace Text

variable {line : Text} (hline : '\n' ∉ line)
include hline

theorem newline_not_mem_return : '\n' ∉ line ++ ['\r'] := by simpa using hline

theorem crlf_line (rest : Text) : crlf (line ++ '\n' :: rest) = (line ++ ['\r']) ++ '\n' :: crlf rest := by
  rw [crlf_eq_pad, pad_line _ hline, List.append_assoc]
  rfl

theorem crlf_last : crlf line = line := pad_eq_self .carriageReturn hline

end Text

namespace DocRun

theorem beginsLine_return (line : Text) : beginsLine (line ++ ['\r']) = beginsLine line :=
  beginsLine_append_cons (by decide) (by decide) line []

theorem isMarkerLine_return (line : Text) : isMarkerLine (line ++ ['\r']) = isMarkerLine line := by
  rw [isMarkerLine, isMarkerLine, isPrefixOf_append_cons (by decide)]
  cases hsign : sign.isPrefixOf line with
  | false => rfl
  | true =>
    rw [List.drop_append_of_le_length (length_le_of_isPrefixOf hsign), dropWhile_append_cons (by decide),
      Marker.dropAt_append_blank (by decide), Marker.afterWord?_append_blank (by decide), Option.any_map]
    -- the return is one more blank behind the word
    congr 2
    funext tail
    simp [isGap]

theorem run_crlf (t : Text) : run (crlf t) = (crlf (run t).1, crlf (run t).2) := by
  induction t using Text.lines_induction with
  | last t h =>
    rw [Text.crlf_last h]
    cases hbegins : beginsLine t with
    | true => rw [run_last h hbegins, Text.crlf_last h]; rfl
    | false => rw [run_not hbegins, Text.crlf_last h]; rfl
  | line line rest hline ih =>
    rw [Text.crlf_line hline]
    cases hbegins : beginsLine line with
    | true =>
      rw [run_line (Text.newline_not_mem_return hline) (by rwa [beginsLine_return]), run_line hline hbegins, ih,
        Text.crlf_line hline]
    | false =>
      rw [run_not (by rwa [beginsLine_line, beginsLine_return]), run_not (by rwa [beginsLine_line]), Text.crlf_line hline]
      rfl

theorem notice?_crlf (t : Text) : notice? (crlf t) = (notice? t).map (Notice.pad .carriageReturn crlf) := by
  by_cases hmem : '\n' ∈ t
  · obtain ⟨line, below, rfl, hline⟩ := List.eq_append_cons_of_mem hmem
    rw [Text.crlf_line hline, notice?_line (Text.newline_not_mem_return hline), notice?_line hline, isMarkerLine_return,
      run_crlf]
    have hempty : crlf (run below).1 ≠ [] ↔ (run below).1 ≠ [] := not_congr (Text.pad_eq_nil_iff .carriageReturn)
    simp only [hempty]
    split
    · rw [Option.map_some, Notice.pad, ← Text.crlf_eq_pad, ← Text.crlf_eq_pad, Text.crlf_line hline]
    · rfl
  · rw [Text.crlf_last hmem, notice?_last hmem, Option.map_none]

end DocRun

/-! ## What they say -/

theorem Diagram.clean_crlf (style : CommentStyle) (raw : Text) : clean style.strip (crlf raw) = clean style.strip raw := by
  have hlines : (splitLines (crlf raw)).map (fun line => trimEnd (style.strip line)) =
      (splitLines raw).map fun line => trimEnd (style.strip line) := by
    induction raw using Text.lines_induction with
    | last t h => rw [Text.crlf_last h]
    | line line rest hline ih =>
      rw [Text.crlf_line hline, Text.splitLines_line (Text.newline_not_mem_return hline), Text.splitLines_line hline,
        List.map_cons, List.map_cons, ih, style.trimEnd_strip_concat (by decide)]
  rw [clean, clean, hlines]

namespace CommentStyle

/-- **Each comment is the same one**, with the carriage returns in it. -/
theorem moved_crlf (style : CommentStyle) (t : Text) :
    Option.Rel (Notice.Moved style .carriageReturn) (style.notice? t) (style.notice? (crlf t)) := by
  refine @moved_of_pad style .carriageReturn crlf (fun raw => Document.code?_congr (Diagram.clean_crlf style raw)) t ?_
  cases henc : style.enclosure? with
  | some pair =>
    obtain ⟨d, head⟩ := pair
    have hheld : head.heldIn .carriageReturn = crlf := by cases head <;> rfl
    obtain ⟨hopener, hcloser⟩ := isBlank_enclosure henc
    rw [notice?_enclosed henc, notice?_enclosed henc, Delimiters.notice?_pad _ hopener hcloser, hheld]
  | none =>
    obtain rfl := eq_docRun henc
    exact DocRun.notice?_crlf t

theorem findings_crlf (style : CommentStyle) (language : Language) (t : Text) :
    style.findings language (crlf t) = style.findings language t :=
  filterMap_finding?_moved style.moved_crlf language rfl t

end CommentStyle

theorem Document.blocks_crlf {t : Text} (hlen : (crlf t).length ≤ maximumLength) (styles : List CommentStyle)
    (language : Language) : blocks styles language (crlf t) = blocks styles language t := by
  have hlen' : t.length ≤ maximumLength := Nat.le_trans (Text.length_le_length_pad .carriageReturn t) hlen
  exact blocks_congr hlen' hlen fun style _ => style.findings_crlf language t

/-- **Line endings do not matter.** -/
theorem parse_crlf (language : Language) {t : Text} (hreturn : '\r' ∉ t) (hlen : (crlf t).length ≤ maximumLength) :
    ∃ found, Document.parse language (String.ofList (crlf t)) = .ok found ∧
      Document.parse language (String.ofList t) = .ok found ∧ ∀ block ∈ found, '\r' ∉ block.code.markup := by
  have hlen' : t.length ≤ maximumLength := Nat.le_trans (Text.length_le_length_pad .carriageReturn t) hlen
  refine ⟨blocks language.grammar.styles language t, ?_, Document.parse_of_length_le language hlen', fun block hblock hc => ?_⟩
  · rw [Document.parse_of_length_le language hlen, Document.blocks_crlf hlen]
  · rcases Document.mem_of_mem_code hlen' hblock hc with h | h
    · cases h
    · exact hreturn h

/-- A comment of either style, with a blank line in both. -/
def mixed : Text := "/*\n * @mermaid\n *\n * graph TD\n *  A --> B\n */\n//! mermaid:\n//! pie\n//!\n//!  \"A\": 1\n".toList

theorem parse_crlf_mixed : ∃ found, Document.parse .rust (String.ofList (crlf mixed)) = .ok found ∧
    Document.parse .rust (String.ofList mixed) = .ok found ∧ (∀ block ∈ found, '\r' ∉ block.code.markup) ∧
    found.map (·.code.markup) = ["graph TD\n A --> B".toList, "pie\n\n \"A\": 1".toList] := by
  obtain ⟨found, hcrlf, hplain, hreturn⟩ := parse_crlf .rust (t := mixed) (by decide) (by decide +kernel)
  refine ⟨found, hcrlf, hplain, hreturn, ?_⟩
  obtain rfl := Except.ok.inj ((Document.parse_of_length_le .rust (by decide +kernel)).symm.trans hplain)
  decide +kernel

end Marginalia
