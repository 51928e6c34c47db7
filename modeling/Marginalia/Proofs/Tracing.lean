import Mathlib.Data.List.Infix
import Marginalia.Proofs.Diagram.Trace
import Marginalia.Proofs.Findings
/-!
# Where the code of a block stands in its text

A block is made from one comment, and every line of its code from one line of the comment's body (`parse_traced`).  What
a marker leaves is the end of a body, a body is a piece of the text, and both keep their lines: only the first and the
last one are cut.  So the lines of the code stand in the text one below the other, on lines of the block's range.
-/
namespace Marginalia

open Document (Finding finding blocks code? maximumLength)
open Text (splitLines)

/-- How a comment of a style is put together, in front of the text `after`: what opens it, its body, which goes up to
the first closer or as far as documentation lines follow one another, and what closes it. -/
inductive CommentStyle.Stands : CommentStyle → (opening body closing after : Text) → Prop
  | delimited {style : CommentStyle} {d : Delimiters} {head : Head} {body after : Text} :
      style.enclosure? = some (d, head) → Text.IsFirst d.closer (body ++ (d.closer ++ after)) body after →
      Stands style d.opener body d.closer after
  | run {line body after : Text} : '\n' ∉ line → DocRun.isMarkerLine line = true →
      DocRun.run (body ++ after) = (body, after) → Stands .docRun (line ++ ['\n']) body [] after

namespace CommentStyle

variable {style : CommentStyle}

/-- **What a marker leaves is the end of the body of its comment.** -/
theorem stands_of_notice? {t : Text} {n : Notice} (h : style.notice? t = some n) :
    ∃ opening body closing, n.whole = opening ++ (body ++ closing) ∧ n.raw <:+ body ∧
      style.Stands opening body closing n.after := by
  cases henc : style.enclosure? with
  | some pair =>
    obtain ⟨d, head⟩ := pair
    rw [notice?_enclosed henc] at h
    obtain ⟨inside, body, -, hbody, hraw, hwhole⟩ := Delimiters.notice?_eq_some_iff.1 h
    have hfirst := hbody
    rw [hbody.eq] at hfirst
    exact ⟨d.opener, body, d.closer, hwhole, Head.announced?_suffix hraw, .delimited henc hfirst⟩
  | none =>
    obtain rfl := eq_docRun henc
    obtain ⟨line, hline, hmarker, -, hrun, -, hwhole⟩ := DocRun.notice?_eq_some_iff.1 h
    refine ⟨line ++ ['\n'], n.raw, [], ?_, List.suffix_refl _, .run hline hmarker hrun⟩
    rw [hwhole, List.append_nil, List.append_assoc, List.singleton_append]

end CommentStyle

namespace Document

theorem code?_markup {style : CommentStyle} {raw : Text} {code : DiagramCode} (h : code? style raw = some code) :
    code.markup = Diagram.clean style.strip raw := by
  rw [code?] at h
  split at h
  · cases h
  · rw [DiagramCode.ofText] at h
    split at h
    · cases h
    · obtain rfl := Option.some.inj h
      exact Diagram.trim_clean style.strip raw

/-- **A block is made from a comment of its text**, and its range is that of the whole comment. -/
theorem exists_comment {t : Text} (hlen : t.length ≤ maximumLength) {styles : List CommentStyle} {language : Language}
    {block : Block} (h : block ∈ blocks styles language t) :
    ∃ style ∈ styles, ∃ before opening body closing after raw,
      t = before ++ (opening ++ (body ++ (closing ++ after))) ∧ style.Stands opening body closing after ∧ raw <:+ body ∧
      code? style raw = some block.code ∧ block.range.first.value = before.count '\n' ∧
      block.range.last.value = (before ++ (opening ++ (body ++ closing))).count '\n' := by
  have hmem : finding block ∈ (blocks styles language t).map finding := List.mem_map_of_mem h
  rw [findings_eq hlen] at hmem
  obtain ⟨style, hstyle, hmem⟩ := List.mem_flatMap.1 hmem
  obtain ⟨⟨before, whole, raw⟩, hs, hfinding⟩ := List.mem_filterMap.1 hmem
  obtain ⟨passed, after, ht, hbefore, hnotice⟩ := CommentStyle.sightings_sound hs
  obtain rfl : before = passed := hbefore
  obtain ⟨opening, body, closing, hwhole, hraw, hstands⟩ := CommentStyle.stands_of_notice? hnotice
  obtain ⟨code, hcode, heq⟩ := Option.map_eq_some_iff.1 hfinding
  obtain ⟨rfl, hfirst, hlast, -⟩ := Finding.mk.inj heq
  obtain rfl : whole = opening ++ (body ++ closing) := hwhole
  refine ⟨style, hstyle, before, opening, body, closing, after, raw, ?_, hstands, hraw, hcode, hfirst.symm, hlast.symm⟩
  simpa only [List.append_assoc] using ht

end Document

/-- A line of a text between other texts is a piece of the line of the whole. -/
theorem Text.getElem?_splitLines_middle (a : Text) {body line : Text} {i : Nat} (h : (splitLines body)[i]? = some line)
    (b : Text) : ∃ whole, (splitLines (a ++ (body ++ b)))[a.count '\n' + i]? = some whole ∧ line <:+: whole := by
  obtain ⟨longer, hlonger, hprefix⟩ := Text.getElem?_splitLines_append b h
  obtain ⟨whole, hwhole, hsuffix, -⟩ := Text.getElem?_splitLines_behind a hlonger
  exact ⟨whole, hwhole, hprefix.isInfix.trans hsuffix.isInfix⟩

theorem CommentStyle.Remains.infix {style : CommentStyle} {line kept : Text} (h : style.Remains line kept) :
    kept <:+: line := by
  obtain ⟨margin, gap, rfl, -⟩ := h
  exact ⟨margin, gap, List.append_assoc _ _ _⟩

/-- **The lines of a code stand in the body of its comment one below the other.** -/
theorem Document.traced_in_body {style : CommentStyle} {body raw : Text} (hraw : raw <:+ body) {code : DiagramCode}
    (hcode : code? style raw = some code) :
    ∃ row, row + (splitLines code.markup).length ≤ (splitLines body).length ∧
      ∀ k kept, (splitLines code.markup)[k]? = some kept → ∃ line, (splitLines body)[row + k]? = some line ∧
        kept <:+: line ∧ (1 ≤ k → style.Remains line kept) := by
  have hmarkup := Document.code?_markup hcode
  have hne : Diagram.clean style.strip raw ≠ [] := hmarkup ▸ code.nonempty
  obtain ⟨row, hrow, htraced⟩ := Diagram.clean_traced hne
  obtain ⟨marker, rfl⟩ := hraw
  rw [hmarkup]
  refine ⟨marker.count '\n' + row, ?_, fun k kept hk => ?_⟩
  · rw [Text.length_splitLines raw] at hrow
    rw [Text.length_splitLines (marker ++ raw), List.count_append]
    omega
  · obtain ⟨line, hline, hremains⟩ := htraced k kept hk
    obtain ⟨whole, hwhole, hsuffix, hlater⟩ := Text.getElem?_splitLines_behind marker hline
    rw [Nat.add_assoc]
    refine ⟨whole, hwhole, hremains.infix.trans hsuffix.isInfix, fun hpos => ?_⟩
    rwa [hlater (by omega)]

/-- Every character of a code is a newline or comes from its text. -/
theorem Document.mem_of_mem_code {t : Text} (hlen : t.length ≤ maximumLength) {styles : List CommentStyle}
    {language : Language} {block : Block} (h : block ∈ blocks styles language t) {c : Char}
    (hc : c ∈ block.code.markup) : c = '\n' ∨ c ∈ t := by
  refine or_iff_not_imp_left.2 fun hnewline => ?_
  obtain ⟨style, -, before, opening, body, closing, after, raw, ht, -, hraw, hcode, -, -⟩ := exists_comment hlen h
  obtain ⟨row, -, htraced⟩ := traced_in_body hraw hcode
  rw [← Text.joinLines_splitLines block.code.markup, ← List.singleton_infix_iff] at hc
  obtain ⟨kept, hkept, hin⟩ := Text.infix_joinLines (List.cons_ne_nil _ _) (by simpa using Ne.symm hnewline) hc
  obtain ⟨k, hk⟩ := List.mem_iff_getElem?.1 hkept
  obtain ⟨line, hline, hpiece, -⟩ := htraced k kept hk
  have hbody : line <:+: body := by
    have := Text.infix_joinLines_of_mem (List.mem_of_getElem? hline)
    rwa [Text.joinLines_splitLines] at this
  have hmem : c ∈ body := hbody.subset (hpiece.subset (hin.subset List.mem_cons_self))
  rw [ht]
  simp [hmem]

/-- How the code of a block stands in a text: the block is made from one comment and its range is that of the whole
comment.  From the line `first` on, which is line `row` of the comment's body, each line of the code stands on one line
of the text, inside the body, and all but the first are what remains of their line of the body. -/
def Traced (language : Language) (t : Text) (block : Block) : Prop :=
  ∃ style ∈ language.grammar.styles, ∃ before opening body closing after,
    t = before ++ (opening ++ (body ++ (closing ++ after))) ∧ style.Stands opening body closing after ∧
    block.range.first.value = before.count '\n' ∧
    block.range.last.value = (before ++ (opening ++ (body ++ closing))).count '\n' ∧
    ∃ first row, first = (before ++ opening).count '\n' + row ∧ block.range.first.value ≤ first ∧
      first + (block.code.markup.splitLines.length - 1) ≤ block.range.last.value ∧
      ∀ k kept, block.code.markup.splitLines[k]? = some kept → ∃ source line,
        t.splitLines[first + k]? = some source ∧ body.splitLines[row + k]? = some line ∧ line <:+: source ∧
        kept <:+: line ∧ (1 ≤ k → style.Remains line kept)

/-- **Every block's code is traced to its source lines.** -/
theorem parse_traced {language : Language} {t : Text} {found : List Block}
    (h : Document.parse language (String.ofList t) = .ok found) : ∀ block ∈ found, Traced language t block := by
  intro block hblock
  rw [Document.parse_ofList] at h
  split at h
  · rename_i hlen
    obtain rfl := Except.ok.inj h
    obtain ⟨style, hstyle, before, opening, body, closing, after, raw, ht, hstands, hraw, hcode, hfirst, hlast⟩ :=
      Document.exists_comment hlen hblock
    obtain ⟨row, hrow, htraced⟩ := Document.traced_in_body hraw hcode
    refine ⟨style, hstyle, before, opening, body, closing, after, ht, hstands, hfirst, hlast, _, row, rfl, ?_, ?_,
      fun k kept hk => ?_⟩
    · rw [hfirst, List.count_append]
      omega
    · rw [hlast]
      rw [Text.length_splitLines body] at hrow
      have hpos := Text.length_splitLines block.code.markup
      simp only [List.count_append]
      omega
    · obtain ⟨line, hline, hin, hremains⟩ := htraced k kept hk
      obtain ⟨source, hsource, hpiece⟩ := Text.getElem?_splitLines_middle (before ++ opening) hline (closing ++ after)
      refine ⟨source, line, ?_, hline, hpiece, hin, hremains⟩
      rw [ht]
      simpa only [List.append_assoc, Nat.add_assoc] using hsource
  · cases h

/-- A comment with decoration, indentation and white space to lose, and text around it. -/
def decorated : Text := "f();\n  /** Flow.\n   * @mermaid:\n   *\n   *   graph TD\r\n   *\n   *\tA --> B  \n   */ g();\n".toList

theorem parse_traced_decorated : ∃ block, Document.parse .go (String.ofList decorated) = .ok [block] ∧
    block.code.markup = "graph TD\n\nA --> B".toList ∧ Traced .go decorated block := by
  obtain ⟨block, hblock⟩ : ∃ block, blocks [.block] .go decorated = [block] :=
    List.length_eq_one_iff.1 (by decide +kernel)
  have hparse : Document.parse .go (String.ofList decorated) = .ok [block] := by
    rw [Document.parse_of_length_le .go (by decide), ← hblock]
    rfl
  have hcode : (blocks [.block] .go decorated).map (·.code.markup) = ["graph TD\n\nA --> B".toList] := by decide +kernel
  rw [hblock] at hcode
  exact ⟨block, hparse, (List.cons.inj hcode).1, parse_traced hparse block (List.mem_singleton_self block)⟩

end Marginalia
