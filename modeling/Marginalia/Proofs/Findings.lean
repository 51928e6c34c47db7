import Marginalia.Proofs.Comment.Padding
import Marginalia.Proofs.Document
/-!
# What the comments of a text say

A sighting has the text before its comment at hand, so its lines are counted there and no table of newlines is needed
(`Sighting.finding?`).  The blocks of a text say, style by style, what its sightings say (`findings_eq`): where two texts
have the same sightings, or each other's, the blocks follow.  A padding that only moves the comments (`Notice.Moved`)
leaves the findings as they are (`filterMap_finding?_moved`).
-/
namespace Marginalia

open Document (Finding finding code? maximumLength)

/-- What a comment says, on the lines that the text before it leaves. -/
def Sighting.finding? (language : Language) (style : CommentStyle) (s : Sighting) : Option Finding :=
  (code? style s.raw).map fun code => ⟨code, s.before.count '\n', (s.before ++ s.whole).count '\n', language⟩

/-- The same comment behind more text says the same, as many lines further down. -/
theorem Sighting.finding?_behind (language : Language) (style : CommentStyle) (p : Text) (s : Sighting) :
    (s.behind p).finding? language style = (s.finding? language style).map (Finding.below (p.count '\n')) := by
  rw [Sighting.finding?, Sighting.finding?, Option.map_map]
  refine congrArg (fun f => (code? style s.raw).map f) (funext fun code => ?_)
  simp only [Function.comp_apply, Sighting.behind, Finding.below, List.count_append, Nat.add_assoc]

namespace CommentStyle

variable {style : CommentStyle}

theorem lineOf_candidate {t : Text} {s : Sighting} (hs : s ∈ style.sightings [] t) (b : Text) :
    (t ++ b).lineOf s.candidate.start = s.before.count '\n' ∧
      (t ++ b).lineOf s.candidate.stop = (s.before ++ s.whole).count '\n' := by
  obtain ⟨before, whole, raw⟩ := s
  obtain ⟨passed, after, rfl, hbefore, -⟩ := sightings_sound hs
  obtain rfl : before = passed := hbefore
  constructor
  · rw [List.append_assoc]
    exact Text.lineOf_byteLength before _
  · rw [← List.append_assoc, List.append_assoc (before ++ whole)]
    exact Text.lineOf_byteLength (before ++ whole) _

theorem finding?_candidate (language : Language) {t : Text} {s : Sighting} (hs : s ∈ style.sightings [] t) :
    Document.finding? language style t s.candidate = s.finding? language style := by
  obtain ⟨hstart, hstop⟩ := lineOf_candidate hs []
  rw [List.append_nil] at hstart hstop
  rw [Document.finding?, hstart, hstop]
  rfl

/-- What the comments of a text say that are of one style. -/
def findings (style : CommentStyle) (language : Language) (t : Text) : List Finding :=
  (style.sightings [] t).filterMap (Sighting.finding? language style)

end CommentStyle

/-! ## Moved comments -/

/-- The comment moved by a padding: it says the same on as many lines, and the text behind it is padded, perhaps after
more white space. -/
structure Notice.Moved (style : CommentStyle) (gap : Padding) (n moved : Notice) : Prop where
  code : code? style moved.raw = code? style n.raw
  newlines : moved.whole.count '\n' = n.whole.count '\n'
  after : ∃ blanks, (∀ c ∈ blanks, isBlank c = true ∧ c ≠ '\n') ∧ moved.after = blanks ++ Text.pad gap n.after

namespace CommentStyle

variable {style : CommentStyle} {gap : Padding}

theorem moved_of_pad {held : Text → Text} (hheld : ∀ raw, code? style (held raw) = code? style raw) {t : Text}
    (h : style.notice? (Text.pad gap t) = (style.notice? t).map (Notice.pad gap held)) :
    Option.Rel (Notice.Moved style gap) (style.notice? t) (style.notice? (Text.pad gap t)) := by
  rw [h]
  cases style.notice? t with
  | none => exact .none
  | some n => exact .some ⟨hheld n.raw, Text.count_newline_pad gap n.whole, [], List.forall_mem_nil _, rfl⟩

/-- **Where the comments at the start of a text are moved with it, all of its comments say the same on the same lines.** -/
theorem filterMap_finding?_moved
    (h : ∀ t, Option.Rel (Notice.Moved style gap) (style.notice? t) (style.notice? (Text.pad gap t))) (language : Language)
    {before before' : Text} (hbefore : before'.count '\n' = before.count '\n') (t : Text) :
    (style.sightings before' (Text.pad gap t)).filterMap (Sighting.finding? language style) =
      (style.sightings before t).filterMap (Sighting.finding? language style) := by
  fun_induction sightings style before t generalizing before' with
  | case1 => rw [Text.pad_nil, sightings, List.filterMap_nil]
  | case2 before c t n hn _ ih =>
    have hrel := h (c :: t)
    rw [hn] at hrel
    obtain ⟨moved, hmoved, hcode, hnewlines, blanks, hblanks, hafter⟩ :
        ∃ moved, style.notice? (Text.pad gap (c :: t)) = some moved ∧ Notice.Moved style gap n moved := by
      generalize style.notice? (Text.pad gap (c :: t)) = notice at hrel
      cases hrel with
      | some hmoved => exact ⟨_, rfl, hmoved⟩
    have hfinding : (Sighting.mk before' moved.whole moved.raw).finding? language style =
        (Sighting.mk before n.whole n.raw).finding? language style := by
      simp only [Sighting.finding?, hcode, List.count_append, hbefore, hnewlines]
    -- the white space behind the comment goes to the text before the next one
    have hnone : blanks.count '\n' = 0 := List.count_eq_zero_of_not_mem fun hmem => (hblanks _ hmem).2 rfl
    have hrest := @ih (before' ++ moved.whole ++ blanks)
      (by simp only [List.count_append, hbefore, hnewlines, hnone, Nat.add_zero])
    rw [sightings_take hmoved, List.filterMap_cons, List.filterMap_cons, hfinding, hafter,
      sightings_append_blank fun c hc => (hblanks c hc).1, hrest]
  | case3 before c t hn ih =>
    have hrel := h (c :: t)
    rw [hn] at hrel
    have hmoved : style.notice? (Text.pad gap (c :: t)) = none := by
      generalize style.notice? (Text.pad gap (c :: t)) = notice at hrel
      cases hrel
      rfl
    rw [sightings_pass_pad gap hmoved]
    exact ih (by rw [List.count_append, List.count_append, hbefore, Text.count_newline_pad])

end CommentStyle

namespace Document

/-- **The blocks of a text say what its comments say, style by style.** -/
theorem findings_eq {t : Text} (hlen : t.length ≤ maximumLength) (styles : List CommentStyle) (language : Language) :
    (blocks styles language t).map finding = styles.flatMap fun style => style.findings language t := by
  rw [findings_blocks hlen, comments, List.filterMap_flatMap]
  congr 1
  funext style
  rw [CommentStyle.candidates_eq_map_sightings, List.map_map, List.filterMap_map]
  exact List.filterMap_congr fun s hs => CommentStyle.finding?_candidate language hs

theorem finding_injective : Function.Injective finding := by
  intro a b h
  obtain ⟨hcode, hfirst, hlast, hlanguage⟩ := Finding.mk.inj h
  obtain ⟨code, ⟨⟨first, _⟩, ⟨last, _⟩, _⟩, language⟩ := a
  obtain ⟨code', ⟨⟨first', _⟩, ⟨last', _⟩, _⟩, language'⟩ := b
  obtain rfl : code = code' := hcode
  obtain rfl : first = first' := hfirst
  obtain rfl : last = last' := hlast
  obtain rfl : language = language' := hlanguage
  rfl

/-- Where the comments of two texts say the same, the blocks are the same. -/
theorem blocks_congr {t t' : Text} (ht : t.length ≤ maximumLength) (ht' : t'.length ≤ maximumLength)
    {styles : List CommentStyle} {language : Language}
    (h : ∀ style ∈ styles, style.findings language t' = style.findings language t) :
    blocks styles language t' = blocks styles language t := by
  refine finding_injective.list_map ?_
  rw [findings_eq ht', findings_eq ht]
  exact List.flatMap_congr h

end Document

end Marginalia
