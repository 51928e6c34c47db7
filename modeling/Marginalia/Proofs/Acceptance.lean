import Mathlib.Data.List.Forall2
import Marginalia.Proofs.Tidiness
/-!
# Which comments become blocks

A comment that announces a diagram is dropped for one of three reasons: nothing stands behind its marker, its markup is
too short, or it is a piece of settings (`IsAccepted`).  The other ways to lose it in `Document.block?` are never taken.
Markup that is not rejected is trimmed already, so trimming it again leaves a code (`exists_code`).  A comment is not
empty, its end is on no earlier line than its start, and a text that is searched has too few characters for a line
number to be out of range (`exists_range`).  So the blocks are the accepted comments, one for one (`parse_accepts`).
-/
namespace Marginalia

open Document (block? blocks comments maximumLength)

/-! ## The steps that cannot fail -/

namespace Diagram

/-- **Markup that is not rejected is a diagram's code**, as it stands. -/
theorem exists_code {strip : Text → Text} {raw : Text} (h : isRejected (clean strip raw) = false) :
    ∃ code, DiagramCode.ofText (clean strip raw) = .ok code ∧ code.markup = clean strip raw := by
  have htrim := trim_clean strip raw
  have hne : clean strip raw ≠ [] := fun hnil => by
    have hlong := (isRejected_eq_false_iff.1 h).1
    rw [hnil] at hlong
    exact absurd hlong (by decide)
  refine ⟨⟨(clean strip raw).trim, Text.trim_trim _, by rwa [htrim]⟩, ?_, htrim⟩
  rw [DiagramCode.ofText, dif_neg (by rwa [htrim])]

end Diagram

/-- The lines of a comment that stands between `before` and `after` in a text. -/
structure Spans (t : Text) (c : Candidate) (range : LineRange) : Prop where
  parts : ∃ before comment after, t = before ++ (comment ++ after) ∧ c.start = before.byteLength ∧
    c.stop = (before ++ comment).byteLength ∧ range.first.value = before.count '\n' ∧
    range.lineCount = 1 + comment.count '\n'
  first_le_last : range.first.value ≤ range.last.value
  count_lt : range.lineCount < 4294967296

namespace CommentStyle

variable {style : CommentStyle} {t : Text} (hlen : t.length ≤ maximumLength)
include hlen

/-- **Every comment has a range of lines**, and the number of its lines is in range as well. -/
theorem exists_range {c : Candidate} (hc : c ∈ style.candidates t) :
    ∃ range, (LineIndex.ofText t).range? c.start c.stop = some range ∧ Spans t c range := by
  have hlt := start_lt_stop c hc
  rw [candidates_eq_map_sightings] at hc
  obtain ⟨⟨before, whole, raw⟩, hs, rfl⟩ := List.mem_map.1 hc
  obtain ⟨passed, after, ht, hbefore, -⟩ := sightings_sound hs
  obtain rfl : before = passed := hbefore
  obtain ⟨hstart, hstop⟩ := lineOf_candidate hs []
  rw [List.append_nil] at hstart hstop
  dsimp only at ht hstart hstop
  obtain ⟨range, hrange, hfirst, hlast⟩ := Document.range?_ofText hlen hlt
  rw [hstart] at hfirst
  rw [hstop, List.count_append] at hlast
  have hcount : range.lineCount = 1 + whole.count '\n' := by
    rw [LineRange.lineCount, hlast, hfirst]
    omega
  have hshort : whole.count '\n' ≤ maximumLength := by
    refine Nat.le_trans (List.count_le_length.trans ?_) hlen
    rw [ht, List.length_append, List.length_append]
    omega
  refine ⟨range, hrange, ⟨before, whole, after, ht, rfl, rfl, hfirst, hcount⟩, by omega, ?_⟩
  rw [maximumLength] at hshort
  omega

end CommentStyle

/-! ## The comments that are kept -/

/-- The comment is not dropped: something stands behind its marker, and its markup is long enough and no piece of
settings. -/
def IsAccepted (style : CommentStyle) (c : Candidate) : Prop :=
  c.raw ≠ [] ∧ 3 ≤ (Diagram.clean style.strip c.raw).length ∧
    ∀ fragment ∈ Diagram.settingsFragments, ¬ fragment <:+: Diagram.clean style.strip c.raw

instance (style : CommentStyle) (c : Candidate) : Decidable (IsAccepted style c) :=
  inferInstanceAs (Decidable (_ ∧ _ ∧ _))

/-- The block of a comment: its cleaned markup, on the lines of the whole comment. -/
structure Reports (language : Language) (t : Text) (style : CommentStyle) (c : Candidate) (block : Block) : Prop where
  markup : block.code.markup = Diagram.clean style.strip c.raw
  range : (LineIndex.ofText t).range? c.start c.stop = some block.range
  spans : Spans t c block.range
  language : block.language = language

theorem block?_of_accepted {t : Text} (hlen : t.length ≤ maximumLength) (language : Language) {style : CommentStyle}
    {c : Candidate} (hc : c ∈ style.candidates t) (h : IsAccepted style c) :
    ∃ block, block? language style (LineIndex.ofText t) c = some block ∧ Reports language t style c block := by
  obtain ⟨hraw, haccepted⟩ := h
  have hrejected := Diagram.isRejected_eq_false_iff.2 haccepted
  obtain ⟨code, hcode, hmarkup⟩ := Diagram.exists_code hrejected
  obtain ⟨range, hrange, hspans⟩ := CommentStyle.exists_range hlen hc
  refine ⟨⟨code, range, language⟩, ?_, hmarkup, hrange, hspans, rfl⟩
  rw [block?, if_neg (by simpa using hraw)]
  simp only [hrejected, hcode, hrange]
  rfl

theorem block?_of_not_accepted {style : CommentStyle} {c : Candidate} (h : ¬ IsAccepted style c) (language : Language)
    (index : LineIndex) : block? language style index c = none := by
  rw [block?]
  by_cases hraw : c.raw = []
  · rw [if_pos (by simpa using hraw)]
  · have hrejected : Diagram.isRejected (Diagram.clean style.strip c.raw) = true := by
      refine Bool.not_eq_false _ ▸ fun hnot => h ⟨hraw, Diagram.isRejected_eq_false_iff.1 hnot⟩
    rw [if_neg (by simpa using hraw)]
    exact if_pos hrejected

theorem blocks_eq_filterMap (styles : List CommentStyle) (language : Language) (t : Text) : blocks styles language t =
    (comments styles t).filterMap fun c => block? language c.1 (LineIndex.ofText t) c.2 := by
  rw [blocks, comments, List.filterMap_flatMap]
  congr 1
  funext style
  rw [List.filterMap_map]
  rfl

theorem forall₂_filter_filterMap {α β : Type} {p : α → Prop} [DecidablePred p] {f : α → Option β} {R : α → β → Prop}
    {items : List α} (hkept : ∀ a ∈ items, p a → ∃ b, f a = some b ∧ R a b)
    (hdropped : ∀ a ∈ items, ¬ p a → f a = none) : List.Forall₂ R (items.filter p) (items.filterMap f) := by
  induction items with
  | nil => exact .nil
  | cons a items ih =>
    have hrest := ih (fun x hx => hkept x (List.mem_cons_of_mem a hx)) fun x hx => hdropped x (List.mem_cons_of_mem a hx)
    by_cases ha : p a
    · obtain ⟨b, hb, hab⟩ := hkept a List.mem_cons_self ha
      rw [List.filter_cons_of_pos (by simpa using ha), List.filterMap_cons_some hb]
      exact .cons hab hrest
    · rw [List.filter_cons_of_neg (by simpa using ha), List.filterMap_cons_none (hdropped a List.mem_cons_self ha)]
      exact hrest

/-- **No comment is dropped but for what it holds.**  In a text that is searched, every comment of every style that
announces a diagram ends behind its start and has a range of lines, and its markup is a code unless it is rejected.  So
the blocks are the accepted comments, in their order, each with its cleaned markup and its range, which has one line more
than the comment has newlines; neither the difference nor the number of lines is out of range. -/
theorem parse_accepts {t : Text} (hlen : t.length ≤ maximumLength) :
    (∀ style : CommentStyle, ∀ c ∈ style.candidates t, c.start < c.stop ∧
      (∃ range, (LineIndex.ofText t).range? c.start c.stop = some range) ∧
      (Diagram.isRejected (Diagram.clean style.strip c.raw) = false →
        ∃ code, DiagramCode.ofText (Diagram.clean style.strip c.raw) = .ok code)) ∧
    ∀ language : Language, ∃ found, Document.parse language (String.ofList t) = .ok found ∧
      List.Forall₂ (fun c block => Reports language t c.1 c.2 block)
        ((comments language.grammar.styles t).filter fun c => IsAccepted c.1 c.2) found := by
  constructor
  · intro style c hc
    obtain ⟨range, hrange, -⟩ := CommentStyle.exists_range hlen hc
    refine ⟨CommentStyle.start_lt_stop c hc, ⟨range, hrange⟩, fun hrejected => ?_⟩
    obtain ⟨code, hcode, -⟩ := Diagram.exists_code hrejected
    exact ⟨code, hcode⟩
  · intro language
    refine ⟨_, Document.parse_of_length_le language hlen, ?_⟩
    rw [blocks_eq_filterMap]
    refine forall₂_filter_filterMap (fun c hc haccepted => ?_) fun c _ hnot => block?_of_not_accepted hnot language _
    obtain ⟨style, -, hin⟩ := List.mem_flatMap.1 hc
    obtain ⟨candidate, hcandidate, rfl⟩ := List.mem_map.1 hin
    exact block?_of_accepted hlen language hcandidate haccepted

/-- Five comments that announce a diagram: one holds nothing, one too little, one a piece of settings, and the others a
diagram each. -/
def scraps : Text :=
  "/*mermaid*/ /* mermaid\nab */\n/* mermaid\n\"a\": \x7b\x7d */ /* @mermaid\n図 pie\n*/\n//! mermaid\n//! pie\n".toList

theorem parse_accepts_scraps : scraps.length ≤ maximumLength ∧
    (comments Language.rust.grammar.styles scraps).length = 5 ∧
    ∃ found, Document.parse .rust (String.ofList scraps) = .ok found ∧
      found.map (fun block => (block.code.markup, block.range.lineCount)) = [("図 pie".toList, 3), ("pie".toList, 3)] ∧
      List.Forall₂ (fun c block => Reports .rust scraps c.1 c.2 block)
        ((comments Language.rust.grammar.styles scraps).filter fun c => IsAccepted c.1 c.2) found := by
  have hlen : scraps.length ≤ maximumLength := by decide +kernel
  obtain ⟨found, hparse, hreports⟩ := (parse_accepts hlen).2 .rust
  refine ⟨hlen, by decide +kernel, found, hparse, ?_, hreports⟩
  rw [(Document.parse_eq_ok_iff.1 hparse).2]
  decide +kernel

end Marginalia
