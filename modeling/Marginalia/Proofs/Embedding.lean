import Marginalia.Proofs.Comment.Announcement
import Marginalia.Proofs.Diagram.Extract
import Marginalia.Proofs.Document
/-!
# A diagram written into a comment is parsed back

A diagram is written into a comment as one writes it by hand: a line with the opener, a line with the marker, the lines
of the diagram behind a margin, a line with the closer.  The proof that the parser gives it back has two halves that
meet at the frame, the lines with their margin.  From the outside the frame is the body of the only comment of the
text, and its marker announces the diagram (`candidates_framed`).  From the inside its lines are those of the diagram
once the margin is taken off (`clean_eq`).
-/
namespace Marginalia

open Text (joinLines trimStart trimEnd)
open Marker (IsMarker)
open Diagram (Embeddable)

namespace Embedding

/-- A marker and the lines of a diagram, each behind a margin, between a first and a last line. -/
def frame (first margin last mark : Text) (lines : List Text) : List Text :=
  first :: (margin ++ mark) :: lines.map (margin ++ ·) ++ [last]

def framed (first margin last mark : Text) (lines : List Text) : Text := joinLines (frame first margin last mark lines)

/-- A diagram in a block comment with a star on every line. -/
def starred (w mark : Text) (lines : List Text) : Text :=
  framed (w ++ "/**".toList) (w ++ " * ".toList) (w ++ " */".toList) mark lines

example : starred "  ".toList "mermaid".toList ["graph TD".toList, "A --> B".toList] =
    "  /**\n   * mermaid\n   * graph TD\n   * A --> B\n   */".toList := by decide

def docstring (quotes w mark : Text) (lines : List Text) : Text :=
  framed (w ++ quotes) w (w ++ quotes) mark lines

variable {first margin last mark w : Text} {lines : List Text}

/-! ## Frames -/

theorem mem_frame {line : Text} : line ∈ frame first margin last mark lines ↔
    line = first ∨ line = margin ++ mark ∨ (∃ l ∈ lines, line = margin ++ l) ∨ line = last := by
  simp only [frame, List.mem_append, List.mem_cons, List.mem_map, List.not_mem_nil, or_false, or_assoc, eq_comm]

theorem newline_not_mem_frame (hfirst : '\n' ∉ first) (hmargin : '\n' ∉ margin) (hlast : '\n' ∉ last)
    (hmark : '\n' ∉ mark) (hlines : ∀ line ∈ lines, '\n' ∉ line) :
    ∀ line ∈ frame first margin last mark lines, '\n' ∉ line := by
  intro line hline
  rcases mem_frame.1 hline with rfl | rfl | ⟨l, hl, rfl⟩ | rfl
  · exact hfirst
  · simp [hmargin, hmark]
  · simp [hmargin, hlines l hl]
  · exact hlast

def below (margin last : Text) (lines : List Text) : Text := joinLines (lines.map (margin ++ ·) ++ [last])

theorem framed_eq (first margin last mark : Text) (lines : List Text) :
    framed first margin last mark lines = first ++ '\n' :: (margin ++ (mark ++ '\n' :: below margin last lines)) := by
  rw [framed, frame, List.cons_append, List.cons_append, Text.joinLines_cons (List.cons_ne_nil _ _),
    Text.joinLines_cons (by simp), List.append_assoc, below]

theorem framed_append_first (a first margin last mark : Text) (lines : List Text) :
    framed (a ++ first) margin last mark lines = a ++ framed first margin last mark lines := by
  rw [framed, frame, List.cons_append, Text.joinLines_append_head]
  rfl

theorem framed_append_last (first margin last b mark : Text) (lines : List Text) :
    framed first margin (last ++ b) mark lines = framed first margin last mark lines ++ b := by
  rw [framed, frame, Text.joinLines_append_last]
  rfl

theorem below_eq (margin last line : Text) (lines : List Text) :
    below margin last (line :: lines) = margin ++ joinLines (line :: lines.map (margin ++ ·) ++ [last]) := by
  rw [below, List.map_cons, List.cons_append, Text.joinLines_append_head]
  rfl

theorem infix_framed {piece : Text} (hne : piece ≠ []) (hn : '\n' ∉ piece)
    (hmargin : ∀ t, piece <:+: margin ++ t → piece <:+: t) (h : piece <:+: framed first margin last mark lines) :
    piece <:+: first ∨ piece <:+: mark ∨ piece <:+: joinLines lines ∨ piece <:+: last := by
  obtain ⟨line, hline, hin⟩ := Text.infix_joinLines hne hn h
  rcases mem_frame.1 hline with rfl | rfl | ⟨l, hl, rfl⟩ | rfl
  · exact Or.inl hin
  · exact Or.inr (Or.inl (hmargin mark hin))
  · exact Or.inr (Or.inr (Or.inl ((hmargin l hin).trans (Text.infix_joinLines_of_mem hl))))
  · exact Or.inr (Or.inr (Or.inr hin))

theorem getLast?_framed (hlast : ∀ c ∈ last, isBlank c) :
    ∀ c ∈ (framed first margin last mark lines).getLast?, isBlank c := by
  intro c hc
  have hframe : framed first margin last mark lines =
      joinLines (first :: (margin ++ mark) :: lines.map (margin ++ ·)) ++ '\n' :: last := by
    rw [framed, frame, Text.joinLines_append (List.cons_ne_nil _ _) (List.cons_ne_nil _ _), Text.joinLines_singleton]
  rw [hframe, List.getLast?_append_of_ne_nil _ (List.cons_ne_nil _ _)] at hc
  rcases List.mem_cons.1 (List.mem_of_getLast? hc) with rfl | hin
  · decide
  · exact hlast c hin

theorem count_newline_framed (h : ∀ line ∈ frame first margin last mark lines, '\n' ∉ line) :
    (framed first margin last mark lines).count '\n' = lines.length + 2 := by
  rw [framed, Text.count_newline_joinLines (by simp [frame]) h]
  simp [frame]

/-! ## From the outside: the only comment of the text -/

theorem isFirst_closer {closer : Text} (hclose : closer.any isBlank = false) (hlast : ∀ c ∈ last, isBlank c)
    (h : ¬ closer <:+: framed first margin last mark lines) :
    Text.IsFirst closer (framed first margin last mark lines ++ (closer ++ [])) (framed first margin last mark lines)
      [] := by
  refine Text.isFirst_of_absent h fun c hc hmem => ?_
  exact List.any_eq_false.1 hclose c hmem (getLast?_framed hlast c hc)

theorem newline_not_mem_quotes {q : Char} (hq : isBlank q = false) : '\n' ∉ [q, q, q] := by
  intro h
  obtain rfl : '\n' = q := by simpa using h
  cases hq

section Outside

variable (hw : ∀ c ∈ w, c = ' ' ∨ c = '\t')
include hw

theorem forall_gap {p : Char → Prop} (hspace : p ' ') (htab : p '\t') : ∀ c ∈ w, p c := by
  intro c hc
  rcases hw c hc with rfl | rfl
  · exact hspace
  · exact htab

theorem newline_not_mem_gap : '\n' ∉ w := fun hc => by
  rcases hw _ hc with hc | hc <;> cases hc

theorem isBlank_gap : ∀ c ∈ w, isBlank c := forall_gap hw (p := (isBlank · = true)) (by decide) (by decide)

theorem blank_in_line : ∀ c ∈ w, isBlank c = true ∧ c ≠ '\n' :=
  forall_gap hw (p := fun c => isBlank c = true ∧ c ≠ '\n') (by decide) (by decide)

theorem not_mem_gap {c : Char} (h : isBlank c = false) : c ∉ w := fun hc => by
  have := isBlank_gap hw c hc
  rw [h] at this
  cases this

theorem isBlank_gap_space : ∀ c ∈ w ++ [' '], isBlank c := by
  intro c hc
  rcases List.mem_append.1 hc with hc | hc
  · exact isBlank_gap hw c hc
  · rw [List.mem_singleton.1 hc]
    decide

theorem infix_star_margin (t : Text) (h : "*/".toList <:+: w ++ " * ".toList ++ t) : "*/".toList <:+: t := by
  rw [show w ++ " * ".toList ++ t = (w ++ [' ']) ++ (['*'] ++ ' ' :: t) by simp] at h
  have hclose : "*/".toList.any isBlank = false := by decide
  have hgap : ∀ c ∈ w ++ [' '], c ∉ "*/".toList := fun c hc hmem =>
    List.any_eq_false.1 hclose c hmem (isBlank_gap_space hw c hc)
  rcases Text.infix_append_cons (by decide) (Text.infix_of_infix_append (by decide) hgap h) with hstar | ht
  · exact absurd hstar.length_le (by decide)
  · exact ht

/-- **The body that a marker announces is that of the only comment**, where its closer stands behind it alone. -/
theorem candidates_framed {style : CommentStyle} {d : Delimiters} {head : Head} {o : Char} {opener raw : Text}
    (henc : style.enclosure? = some (d, head)) (hopener : d.opener = o :: opener) (ho : isBlank o = false)
    (hcloser : d.closer.any isBlank = false) (hlast : ∀ c ∈ last, isBlank c)
    (habsent : ¬ d.closer <:+: framed first margin last mark lines)
    (hraw : head.announced? (framed first margin last mark lines) = some raw) :
    style.candidates (framed (w ++ (d.opener ++ first)) margin (last ++ d.closer) mark lines) =
      [⟨w.byteLength, (framed (w ++ (d.opener ++ first)) margin (last ++ d.closer) mark lines).byteLength, raw⟩] := by
  have htext : framed (w ++ (d.opener ++ first)) margin (last ++ d.closer) mark lines =
      w ++ (d.opener ++ (framed first margin last mark lines ++ (d.closer ++ []))) := by
    rw [List.append_nil, framed_append_first, framed_append_first, framed_append_last]
  have hopen : Text.IsFirst d.opener (framed (w ++ (d.opener ++ first)) margin (last ++ d.closer) mark lines) w
      (framed first margin last mark lines ++ (d.closer ++ [])) := by
    rw [htext, hopener]
    exact Text.isFirst_of_not_mem (not_mem_gap hw ho) _
  exact CommentStyle.candidates_single henc hopen (isFirst_closer hcloser hlast habsent) hraw

theorem candidates_starred (hmark : IsMarker mark) (hlines : ¬ "*/".toList <:+: joinLines lines) :
    CommentStyle.block.candidates (starred w mark lines) =
      [⟨w.byteLength, (starred w mark lines).byteLength,
        trimStart (below (w ++ " * ".toList) (w ++ [' ']) lines)⟩] := by
  have habsent : ¬ "*/".toList <:+: framed ['*'] (w ++ " * ".toList) (w ++ [' ']) mark lines := by
    intro hin
    rcases infix_framed (by decide) (by decide) (infix_star_margin hw) hin with hin | hin | hin | hin
    · exact absurd hin.length_le (by decide)
    · exact hmark.not_mem (c := '/') (by decide) (hin.subset (by decide))
    · exact hlines hin
    · have := isBlank_gap_space hw _ (hin.subset (a := '*') (by decide))
      cases this
  have hraw : Head.block.announced? (framed ['*'] (w ++ " * ".toList) (w ++ [' ']) mark lines) =
      some (trimStart (below (w ++ " * ".toList) (w ++ [' ']) lines)) := by
    have hmargin : ∀ c ∈ '*' :: '\n' :: (w ++ " * ".toList), c = '*' ∨ isBlank c := by
      intro c hc
      simp only [List.mem_cons, List.mem_append] at hc
      rcases hc with rfl | rfl | hc | hc
      · exact Or.inl rfl
      · exact Or.inr (by decide)
      · exact Or.inr (isBlank_gap hw c hc)
      · obtain rfl | rfl | rfl : c = ' ' ∨ c = '*' ∨ c = ' ' := by simpa using hc
        · exact Or.inr (by decide)
        · exact Or.inl rfl
        · exact Or.inr (by decide)
    have := Marker.leading?_announced hmark hmargin (below (w ++ " * ".toList) (w ++ [' ']) lines)
    rw [Head.announced?, Head.leading?, framed_eq]
    rw [List.cons_append, List.cons_append] at this
    rw [List.singleton_append, this]
  have htext : starred w mark lines =
      framed (w ++ ("/*".toList ++ ['*'])) (w ++ " * ".toList) ((w ++ [' ']) ++ "*/".toList) mark lines := by
    rw [starred, List.append_assoc w [' ']]
    rfl
  rw [htext]
  exact candidates_framed hw (d := CommentStyle.blockDelimiters) rfl rfl (by decide) (by decide) (isBlank_gap_space hw)
    habsent hraw

variable {style : CommentStyle} {d : Delimiters} {q : Char} (hq : isBlank q = false)
  (hmarker : q.toLower ∉ '@' :: ':' :: Marker.word)
include hq

theorem infix_gap (t : Text) (h : [q, q, q] <:+: w ++ t) : [q, q, q] <:+: t := by
  refine Text.infix_of_infix_append (List.cons_ne_nil _ _) (fun c hc hmem => ?_) h
  obtain rfl : c = q := by simpa using hmem
  exact not_mem_gap hw hq hc

include hmarker

theorem candidates_docstring (henc : style.enclosure? = some (d, .docstring)) (hopener : d.opener = [q, q, q])
    (hcloser : d.closer = [q, q, q]) (hmark : IsMarker mark)
    (hstart : ∃ c line rest, lines = (c :: line) :: rest ∧ isBlank c = false) (hlines : ¬ [q, q, q] <:+: joinLines lines) :
    style.candidates (docstring [q, q, q] w mark lines) =
      [⟨w.byteLength, (docstring [q, q, q] w mark lines).byteLength, below w w lines⟩] := by
  have habsent : ¬ d.closer <:+: framed [] w w mark lines := by
    rw [hcloser]
    intro hin
    rcases infix_framed (List.cons_ne_nil _ _) (newline_not_mem_quotes hq) (infix_gap hw hq) hin with
      hin | hin | hin | hin
    · exact absurd (List.infix_nil.1 hin) (List.cons_ne_nil _ _)
    · exact hmark.not_mem hmarker (hin.subset List.mem_cons_self)
    · exact hlines hin
    · exact not_mem_gap hw hq (hin.subset List.mem_cons_self)
  have hraw : Head.docstring.announced? (framed [] w w mark lines) = some (below w w lines) := by
    obtain ⟨c, line, rest, rfl, hc⟩ := hstart
    have hbefore : ∀ x ∈ '\n' :: w, foldCase x ≠ 'm' := by
      intro x hx
      rcases List.mem_cons.1 hx with rfl | hx
      · decide
      · exact forall_gap hw (p := (foldCase · ≠ 'm')) (by decide) (by decide) x hx
    have hbelow : below w w ((c :: line) :: rest) = w ++ c :: joinLines (line :: rest.map (w ++ ·) ++ [w]) := by
      rw [below_eq, List.cons_append, ← List.singleton_append (l := line), Text.joinLines_append_head]
      rfl
    have := Marker.inDocstring?_announced hmark hbefore hbelow (blank_in_line hw) hc
    rw [Head.announced?, Head.leading?, framed_eq]
    exact this
  have htext : docstring [q, q, q] w mark lines = framed (w ++ (d.opener ++ [])) w (w ++ d.closer) mark lines := by
    rw [hopener, hcloser, List.append_nil, docstring]
  rw [htext]
  exact candidates_framed hw henc hopener hq (by simp [hcloser, hq]) (isBlank_gap hw) habsent hraw

theorem candidates_docstring_other {x : Char} (hx : x ≠ q) (henc : style.enclosure? = some (d, .docstring))
    (hopener : d.opener = [q, q, q]) (hmark : IsMarker mark) (hlines : ¬ [q, q, q] <:+: joinLines lines) :
    style.candidates (docstring [x, x, x] w mark lines) = [] := by
  refine CommentStyle.candidates_eq_nil henc fun hin => ?_
  rw [hopener] at hin
  have hquotes : ¬ [q, q, q] <:+: w ++ [x, x, x] := by
    intro hin
    have := hin.subset List.mem_cons_self
    simp only [List.mem_append, List.mem_cons, List.not_mem_nil, or_false, or_self] at this
    rcases this with hmem | rfl
    · exact not_mem_gap hw hq hmem
    · exact hx rfl
  rcases infix_framed (List.cons_ne_nil _ _) (newline_not_mem_quotes hq) (infix_gap hw hq) hin with
    hin | hin | hin | hin
  · exact hquotes hin
  · exact hmark.not_mem hmarker (hin.subset List.mem_cons_self)
  · exact hlines hin
  · exact hquotes hin

end Outside

/-! ## From the inside: the lines of the diagram -/

section Inside

variable (hw : ∀ c ∈ w, c = ' ' ∨ c = '\t')

theorem splitLines_below (h : Embeddable lines) (hmargin : '\n' ∉ margin) (hlast : '\n' ∉ last) :
    (below margin last lines).splitLines = lines.map (margin ++ ·) ++ [last] := by
  refine Text.splitLines_joinLines (by simp) fun line hline => ?_
  rcases List.mem_append.1 hline with hl | hl
  · obtain ⟨l, hin, rfl⟩ := List.mem_map.1 hl
    simp [hmargin, h.one_line l hin]
  · rwa [List.mem_singleton.1 hl]

include hw

theorem clean_docstring (h : Embeddable lines) {style : CommentStyle}
    (hstyle : style = .doubleQuoted ∨ style = .singleQuoted) :
    Diagram.clean style.strip (below w w lines) = joinLines lines := by
  refine h.clean_eq (isBlank_gap hw) ?_
  have hstrip : style.strip = id := by
    rcases hstyle with rfl | rfl <;> rfl
  rw [splitLines_below h (newline_not_mem_gap hw) (newline_not_mem_gap hw), hstrip, List.map_append, List.map_map]
  show _ ++ [trimEnd w] = _
  rw [Text.trimEnd_eq_nil (isBlank_gap hw)]
  rfl

theorem strip_star_line (line : Text) : CommentStyle.block.strip (w ++ " * ".toList ++ line) = line := by
  rw [show w ++ " * ".toList ++ line = (w ++ [' ']) ++ (['*'] ++ ' ' :: line) by simp]
  exact CommentStyle.stripSign_decorated (by decide) (isBlank_gap_space hw) line

theorem trimStart_star_margin (t : Text) : trimStart (w ++ " * ".toList ++ t) = "* ".toList ++ t := by
  rw [show w ++ " * ".toList ++ t = (w ++ [' ']) ++ ("* ".toList ++ t) by simp,
    Text.trimStart_append (isBlank_gap_space hw)]
  exact Text.trimStart_cons (by decide)

theorem clean_starred (h : Embeddable lines) :
    Diagram.clean CommentStyle.block.strip (trimStart (below (w ++ " * ".toList) (w ++ [' ']) lines)) =
      joinLines lines := by
  have hnone : ∀ c ∈ ([] : Text), isBlank c := by simp
  refine h.clean_eq hnone ?_
  have hone := h.one_line
  obtain ⟨first, rest, rfl, -⟩ := h.starts
  have hstar : '\n' ∉ w ++ " * ".toList := by simp [newline_not_mem_gap hw]
  have hraw : trimStart (below (w ++ " * ".toList) (w ++ [' ']) (first :: rest)) =
      joinLines (("* ".toList ++ first) :: rest.map (w ++ " * ".toList ++ ·) ++ [w ++ [' ']]) := by
    rw [below_eq, trimStart_star_margin hw, List.cons_append, List.cons_append, Text.joinLines_append_head]
  have hlines : ∀ line ∈ ("* ".toList ++ first) :: rest.map (w ++ " * ".toList ++ ·) ++ [w ++ [' ']], '\n' ∉ line := by
    intro line hline
    simp only [List.mem_append, List.mem_cons, List.mem_map, List.not_mem_nil, or_false] at hline
    rcases hline with (rfl | ⟨l, hl, rfl⟩) | rfl
    · simp [hone first List.mem_cons_self]
    · simpa [newline_not_mem_gap hw] using hone l (List.mem_cons_of_mem _ hl)
    · simp [newline_not_mem_gap hw]
  have hfirst : CommentStyle.block.strip ("* ".toList ++ first) = first :=
    @CommentStyle.stripSign_decorated '*' [] [] (by decide) hnone first
  have hlast : (CommentStyle.block.strip (w ++ [' '])).trimEnd = [] := by
    rw [CommentStyle.strip, CommentStyle.stripSign_blank (isBlank_gap_space hw),
      Text.trimEnd_eq_nil (isBlank_gap_space hw)]
  rw [hraw, Text.splitLines_joinLines (by simp) hlines, List.map_append, List.map_cons, List.map_map, hfirst,
    List.map_singleton, hlast]
  simp only [Function.comp_def, strip_star_line hw]
  rfl

end Inside

/-! ## There and back -/

/-- The text parses to one block, which holds these lines and takes all of the comment's. -/
def ParsesBack (language : Language) (t : Text) (lines : List Text) : Prop :=
  ∃ block, Document.parse language (String.ofList t) = .ok [block] ∧ block.code.markup = joinLines lines ∧
    block.range.first.value = 0 ∧ block.range.last.value = lines.length + 2 ∧ block.language = language

theorem parsesBack_of_comments (h : Embeddable lines) {language : Language} {style : CommentStyle} {before t raw : Text}
    (hlen : t.length ≤ Document.maximumLength) (hbefore : '\n' ∉ before) (hbegins : before <+: t)
    (hcount : t.count '\n' = lines.length + 2)
    (hcomments : Document.comments language.grammar.styles t = [(style, ⟨before.byteLength, t.byteLength, raw⟩)])
    (hclean : Diagram.clean style.strip raw = joinLines lines) : ParsesBack language t lines := by
  have hcode : Document.code? style raw = some h.code := Document.code?_eq_some hclean h.not_isRejected
  have hfirst : t.lineOf before.byteLength = 0 := by
    obtain ⟨rest, rfl⟩ := hbegins
    rw [Text.lineOf_byteLength, List.count_eq_zero_of_not_mem hbefore]
  have hlast : t.lineOf t.byteLength = lines.length + 2 := by
    have := Text.lineOf_byteLength t []
    rwa [List.append_nil, hcount] at this
  have hfindings := Document.findings_blocks hlen language.grammar.styles language
  rw [hcomments, List.filterMap_cons, List.filterMap_nil, Document.finding?, hcode, Option.map_some, hfirst,
    hlast] at hfindings
  obtain ⟨block, hblocks, hfinding⟩ := List.map_eq_singleton_iff.1 hfindings
  refine ⟨block, ?_, ?_⟩
  · rw [Document.parse_of_length_le language hlen, hblocks]
  · obtain ⟨hcode, hfirst, hlast, hlanguage⟩ := Document.Finding.mk.inj hfinding
    exact ⟨congrArg DiagramCode.markup hcode, hfirst, hlast, hlanguage⟩

theorem newline_not_mem_starred (hw : ∀ c ∈ w, c = ' ' ∨ c = '\t') (hmark : IsMarker mark)
    (hlines : ∀ line ∈ lines, '\n' ∉ line) :
    ∀ line ∈ frame (w ++ "/**".toList) (w ++ " * ".toList) (w ++ " */".toList) mark lines, '\n' ∉ line := by
  have hgap : ∀ t, '\n' ∉ t → '\n' ∉ w ++ t := fun t ht => by simp [newline_not_mem_gap hw, ht]
  exact newline_not_mem_frame (hgap _ (by decide)) (hgap _ (by decide)) (hgap _ (by decide)) (hmark.not_mem (by decide))
    hlines

theorem scan_starred (hw : ∀ c ∈ w, c = ' ' ∨ c = '\t') (hmark : IsMarker mark) (hlines : ∀ line ∈ lines, '\n' ∉ line) :
    DocRun.scan (starred w mark lines) = [] := by
  refine DocRun.scan_eq_nil fun rest hrest => ?_
  obtain ⟨line, hline, hbegins⟩ := Text.suffix_joinLines (newline_not_mem_starred hw hmark hlines) hrest
  -- the lines behind the first begin with `w` and a star
  obtain ⟨t, rfl⟩ : ∃ t, line = w ++ (" *".toList ++ t) := by
    change line ∈ (w ++ " * ".toList ++ mark) :: lines.map (w ++ " * ".toList ++ ·) ++ [w ++ " */".toList] at hline
    simp only [List.mem_append, List.mem_cons, List.mem_map, List.not_mem_nil, or_false] at hline
    rcases hline with (rfl | ⟨l, -, rfl⟩) | rfl
    · exact ⟨' ' :: mark, by simp⟩
    · exact ⟨' ' :: l, by simp⟩
    · exact ⟨['/'], rfl⟩
  obtain ⟨u, rfl⟩ := hbegins
  have hskip := forall_gap hw (p := (DocRun.isGap · = true)) (by decide) (by decide)
  rw [DocRun.beginsLine, List.append_assoc, List.append_assoc, List.dropWhile_append_of_pos hskip]
  rfl

theorem parsesBack_starred (h : Embeddable lines) (hw : ∀ c ∈ w, c = ' ' ∨ c = '\t') (hmark : IsMarker mark)
    {language : Language} (hlanguage : language ≠ .python) (hclose : ¬ "*/".toList <:+: joinLines lines)
    (hlen : (starred w mark lines).length ≤ Document.maximumLength) :
    ParsesBack language (starred w mark lines) lines := by
  have hblock := candidates_starred hw hmark hclose
  have hrun : CommentStyle.docRun.candidates (starred w mark lines) = [] := scan_starred hw hmark h.one_line
  refine parsesBack_of_comments h hlen (newline_not_mem_gap hw)
    ⟨_, (framed_append_first _ _ _ _ _ _).symm⟩ (count_newline_framed (newline_not_mem_starred hw hmark h.one_line)) ?_
    (clean_starred hw h)
  cases language <;>
    first
      | exact absurd rfl hlanguage
      | simp [Document.comments, Language.grammar, Grammar.styles, hblock, hrun]

theorem parsesBack_docstring (h : Embeddable lines) (hw : ∀ c ∈ w, c = ' ' ∨ c = '\t') (hmark : IsMarker mark)
    (hdouble : ¬ "\"\"\"".toList <:+: joinLines lines) (hsingle : ¬ "'''".toList <:+: joinLines lines)
    {quotes : Text} (hquotes : quotes = "\"\"\"".toList ∨ quotes = "'''".toList)
    (hlen : (docstring quotes w mark lines).length ≤ Document.maximumLength) :
    ParsesBack .python (docstring quotes w mark lines) lines := by
  have hnewline := newline_not_mem_gap hw
  have hmarkline : '\n' ∉ mark := hmark.not_mem (by decide)
  have hstart : ∃ c line rest, lines = (c :: line) :: rest ∧ isBlank c = false := by
    obtain ⟨first, rest, rfl, hstart⟩ := h.starts
    obtain ⟨c, line, rfl, hc⟩ := Diagram.isBlank_of_isStart hstart
    exact ⟨c, line, rest, rfl, hc⟩
  have hcount : '\n' ∉ quotes → (docstring quotes w mark lines).count '\n' = lines.length + 2 := fun hq =>
    count_newline_framed
      (newline_not_mem_frame (by simp [hnewline, hq]) hnewline (by simp [hnewline, hq]) hmarkline h.one_line)
  have hbegins : w <+: docstring quotes w mark lines := ⟨_, (framed_append_first _ _ _ _ _ _).symm⟩
  have hdoubleQuoted : CommentStyle.doubleQuoted.enclosure? = some (CommentStyle.doubleQuotes, .docstring) := rfl
  have hsingleQuoted : CommentStyle.singleQuoted.enclosure? = some (CommentStyle.singleQuotes, .docstring) := rfl
  rcases hquotes with rfl | rfl
  · have hin := candidates_docstring hw (q := '"') (by decide) (by decide) hdoubleQuoted rfl rfl hmark hstart hdouble
    have hout := candidates_docstring_other hw (q := '\u0027') (x := '"') (by decide) (by decide) (by decide)
      hsingleQuoted rfl hmark hsingle
    refine parsesBack_of_comments h hlen hnewline hbegins (hcount (by decide)) ?_
      (clean_docstring hw h (Or.inl rfl))
    simp [Document.comments, Language.grammar, Grammar.styles, hin, hout]
  · have hin := candidates_docstring hw (q := '\u0027') (by decide) (by decide) hsingleQuoted rfl rfl hmark hstart
      hsingle
    have hout := candidates_docstring_other hw (q := '"') (x := '\u0027') (by decide) (by decide) (by decide)
      hdoubleQuoted rfl hmark hdouble
    refine parsesBack_of_comments h hlen hnewline hbegins (hcount (by decide)) ?_
      (clean_docstring hw h (Or.inr rfl))
    simp [Document.comments, Language.grammar, Grammar.styles, hin, hout]

/-- **A diagram written into a comment is parsed back.**  A starred comment gives its lines back in every language with
block comments, if they hold no closer, and a docstring of either kind does in Python, if they hold no triple quote. -/
theorem parse_embedded (h : Embeddable lines) (hw : ∀ c ∈ w, c = ' ' ∨ c = '\t') (hmark : IsMarker mark) :
    (∀ language, language ≠ .python → ¬ "*/".toList <:+: joinLines lines →
      (starred w mark lines).length ≤ Document.maximumLength → ParsesBack language (starred w mark lines) lines) ∧
    (¬ "\"\"\"".toList <:+: joinLines lines → ¬ "'''".toList <:+: joinLines lines →
      ∀ quotes, quotes = "\"\"\"".toList ∨ quotes = "'''".toList →
        (docstring quotes w mark lines).length ≤ Document.maximumLength →
          ParsesBack .python (docstring quotes w mark lines) lines) := by
  refine ⟨fun language hlanguage hclose hlen => ?_, fun hdouble hsingle quotes hquotes hlen => ?_⟩
  · exact parsesBack_starred h hw hmark hlanguage hclose hlen
  · exact parsesBack_docstring h hw hmark hdouble hsingle hquotes hlen

def sample : List Text := ["graph TD".toList, [], "    A --> B".toList]

theorem embeddable_sample : Embeddable sample where
  starts := ⟨_, _, rfl, by decide⟩
  one_line := by decide
  no_trailing_blank := by decide
  last_not_blank := by decide
  no_blank_pair := by decide
  no_heading := by decide
  long_enough := by decide
  no_settings fragment hin hoccurs := by
    have hquote : ∀ fragment ∈ Diagram.settingsFragments, '"' ∈ fragment := by decide
    exact absurd (hoccurs.subset (hquote fragment hin)) (by decide)

theorem not_infix_sample {piece : Text} {c : Char} (hc : c ∈ piece) (h : c ∉ joinLines sample) :
    ¬ piece <:+: joinLines sample := fun hin => h (hin.subset hc)

theorem parse_embedded_sample :
    ParsesBack .rust (starred "  ".toList "Mermaid:".toList sample) sample ∧
    ParsesBack .python (docstring "'''".toList "\t".toList "@MERMAID".toList sample) sample := by
  constructor
  · refine (parse_embedded embeddable_sample (by simp) (.titled (s := "Mermaid".toList) (by decide))).1 .rust
      (by decide) ?_ (by decide +kernel)
    exact not_infix_sample (c := '*') (by decide) (by decide)
  · refine (parse_embedded embeddable_sample (by simp) (.tagged (s := "MERMAID".toList) (by decide))).2 ?_ ?_ _
      (Or.inr rfl) (by decide +kernel)
    · exact not_infix_sample (c := '"') (by decide) (by decide)
    · exact not_infix_sample (c := '\u0027') (by decide) (by decide)

/-- Behind too much white space a diagram is not parsed at all. -/
theorem starred_too_long :
    Embeddable sample ∧ (∀ c ∈ List.replicate 1000001 ' ', c = ' ' ∨ c = '\t') ∧ IsMarker "mermaid".toList ∧
      ¬ "*/".toList <:+: joinLines sample ∧
      ¬ ParsesBack .typescript (starred (List.replicate 1000001 ' ') "mermaid".toList sample) sample := by
  refine ⟨embeddable_sample, fun c hc => Or.inl (List.eq_of_mem_replicate hc), .bare (by decide),
    not_infix_sample (c := '*') (by decide) (by decide), ?_⟩
  rintro ⟨block, hparse, -⟩
  have hlen : ¬ (starred (List.replicate 1000001 ' ') "mermaid".toList sample).length ≤ Document.maximumLength := by
    rw [starred, framed_append_first, List.length_append, List.length_replicate, Document.maximumLength]
    omega
  rw [Document.parse_ofList, if_neg hlen] at hparse
  cases hparse

end Embedding

end Marginalia
