import Marginalia.Proofs.Comment.FirstMarker
import Marginalia.Proofs.Comment.Search
/-!
# Which comments are discovered

The candidates of a scan are comments of the text, each up to the first closer behind its opener
(`Reads.sound`); they follow one another without overlap (`Reads.pairwise`); and an opener outside all of
them opens nothing that announces a diagram (`Reads.complete`).  Each is an induction along the plain scan, in the shape `Reads` gives it.
-/
namespace Marginalia

open Marker (MarkerAt FirstMarker)

variable {d : Delimiters} {head : Head}

theorem Delimiters.span_eq (d : Delimiters) (body : Text) :
    d.span body = Text.byteLength (d.opener ++ (body ++ d.closer)) := by
  simp only [Delimiters.span, Text.byteLength_append, Nat.add_assoc]

theorem Delimiters.span_pos (d : Delimiters) (body : Text) : 0 < d.span body := by
  have := Text.length_le_byteLength d.opener
  have := d.length_opener_pos
  unfold Delimiters.span
  omega

/-- No comment with a diagram begins with the opener that `inside` follows: it has no closer, or announces nothing. -/
def Unannounced (d : Delimiters) (head : Head) (inside : Text) : Prop :=
  ¬ d.closer <:+: inside ∨ ∃ body after, Text.IsFirst d.closer inside body after ∧ head.announced? body = none

/-- How the plain scan goes through a text that stands at `pos`: past a character that opens nothing, or over a
comment that announces a diagram. -/
inductive Reads (d : Delimiters) (head : Head) : (pos : Nat) → Text → List Candidate → Prop
  | done (pos : Nat) : Reads d head pos [] []
  | pass {pos : Nat} {c : Char} {t : Text} {found : List Candidate} :
      (∀ inside, c :: t = d.opener ++ inside → Unannounced d head inside) →
      Reads d head (pos + c.utf8Size) t found → Reads d head pos (c :: t) found
  | take {pos : Nat} {inside body after raw : Text} {found : List Candidate} :
      Text.IsFirst d.closer inside body after → head.announced? body = some raw →
      Reads d head (pos + d.span body) after found →
      Reads d head pos (d.opener ++ inside) (⟨pos, pos + d.span body, raw⟩ :: found)

theorem reads_scanPlainly (pos : Nat) (t : Text) : Reads d head pos t (scanPlainly d head pos t) := by
  fun_induction scanPlainly d head pos t with
  | case1 pos => exact .done pos
  | case2 pos c t hopen hnone ih =>
    refine .pass (fun inside hin => Or.inl ?_) ih
    rw [hin, d.body?_opener] at hnone
    exact Text.cut?_eq_none_iff.1 hnone
  | case3 pos c t hopen body after hbody raw hraw _ ih =>
    obtain ⟨inside, hin⟩ := List.isPrefixOf_iff_prefix.1 hopen
    rw [← hin, d.body?_opener] at hbody
    rw [← hin]
    exact .take (Text.cut?_eq_some_iff.1 hbody) hraw ih
  | case4 pos c t hopen body after hbody hnone ih =>
    refine .pass (fun inside hin => Or.inr ⟨body, after, ?_, hnone⟩) ih
    rw [hin, d.body?_opener] at hbody
    exact Text.cut?_eq_some_iff.1 hbody
  | case5 pos c t hopen ih =>
    refine .pass (fun inside hin => absurd ?_ hopen) ih
    rw [hin, List.isPrefixOf_iff_prefix]
    exact List.prefix_append _ _

namespace Reads

variable {pos : Nat} {t : Text} {found : List Candidate}

theorem bounds (h : Reads d head pos t found) : ∀ c ∈ found, pos ≤ c.start ∧ c.start < c.stop := by
  induction h with
  | done => simp
  | pass _ _ ih =>
    intro c hc
    have := ih c hc
    omega
  | @take pos _ body _ _ _ _ _ _ ih =>
    intro c hc
    have hpos := d.span_pos body
    rcases List.mem_cons.1 hc with rfl | hc
    · exact ⟨Nat.le_refl _, by dsimp only; omega⟩
    · have := ih c hc
      omega

/-- **The comments follow one another.** -/
theorem pairwise (h : Reads d head pos t found) :
    found.Pairwise fun a b => a.start < b.start ∧ a.stop ≤ b.start := by
  induction h with
  | done => exact List.Pairwise.nil
  | pass _ _ ih => exact ih
  | @take pos _ body _ _ _ _ _ hrest ih =>
    refine List.Pairwise.cons (fun c hc => ?_) ih
    have hpos := d.span_pos body
    have := (hrest.bounds c hc).1
    exact ⟨by dsimp only; omega, this⟩

/-- **Every candidate is a comment of the text that announces a diagram.** -/
theorem sound (h : Reads d head pos t found) : ∀ c ∈ found, ∃ before inside body after,
    t = before ++ (d.opener ++ inside) ∧ Text.IsFirst d.closer inside body after ∧
      c.start = pos + before.byteLength ∧ c.stop = c.start + d.span body ∧ head.announced? body = some c.raw := by
  induction h with
  | done => simp
  | @pass pos x t _ _ _ ih =>
    intro c hc
    obtain ⟨before, inside, body, after, rfl, hbody, hstart, hstop, hraw⟩ := ih c hc
    refine ⟨x :: before, inside, body, after, rfl, hbody, ?_, hstop, hraw⟩
    rw [hstart, Text.byteLength_cons, Nat.add_assoc]
  | @take pos inside body after raw _ hbody hraw _ ih =>
    intro c hc
    rcases List.mem_cons.1 hc with rfl | hc
    · exact ⟨[], inside, body, after, rfl, hbody, rfl, rfl, hraw⟩
    · obtain ⟨before, inside', body', after', rfl, hbody', hstart, hstop, hraw'⟩ := ih c hc
      refine ⟨d.opener ++ (body ++ (d.closer ++ before)), inside', body', after', ?_, hbody', ?_, hstop, hraw'⟩
      · rw [hbody.eq]
        simp only [List.append_assoc]
      · rw [hstart, d.span_eq]
        simp only [Text.byteLength_append]
        omega

/-- **Every opener outside the candidates opens no comment that announces a diagram.** -/
theorem complete (h : Reads d head pos t found) : ∀ before inside, t = before ++ (d.opener ++ inside) →
    (∀ c ∈ found, ¬ (c.start ≤ pos + before.byteLength ∧ pos + before.byteLength < c.stop)) →
    Unannounced d head inside := by
  induction h with
  | done =>
    intro before inside ht
    have := d.length_opener_pos
    have := congrArg List.length ht
    simp only [List.length_nil, List.length_append] at this
    omega
  | @pass pos x t _ hx _ ih =>
    intro before inside ht hout
    cases before with
    | nil => exact hx inside ht
    | cons y before =>
      obtain ⟨rfl, htail⟩ := List.cons.inj ht
      refine ih before inside htail fun c hc => ?_
      have := hout c hc
      rwa [Text.byteLength_cons, ← Nat.add_assoc] at this
  | @take pos inside₀ body after raw found hbody _ _ ih =>
    intro before inside ht hout
    -- the opener stands outside the comment that was taken, and so behind it
    have hspan : d.span body ≤ before.byteLength := by
      have := hout _ List.mem_cons_self
      dsimp only at this
      omega
    have htext : (d.opener ++ (body ++ d.closer)) ++ after = before ++ (d.opener ++ inside) := by
      rw [← ht, hbody.eq]
      simp only [List.append_assoc]
    obtain ⟨behind, rfl⟩ := Text.prefix_of_byteLength_le htext (by rwa [← d.span_eq])
    refine ih behind inside (List.append_cancel_left (htext.trans (List.append_assoc _ _ _))) fun c hc => ?_
    have := hout c (List.mem_cons_of_mem _ hc)
    rwa [Text.byteLength_append, ← d.span_eq, ← Nat.add_assoc] at this

end Reads

theorem reads_scan (d : Delimiters) (head : Head) (t : Text) : Reads d head 0 t (scan d head t) := by
  rw [scan, Search.finish_start]
  exact reads_scanPlainly 0 t

/-- **Which comments a scan discovers.**  They come in the order of the text and do not overlap.  Each begins with the
opener and ends with the first closer behind it, and holds what follows its leading marker if there is one and else
what follows the first marker inside.  And an opener outside all of them has no closer behind it, or a body that no
marker leads and none stands in. -/
theorem scan_discovers (d : Delimiters) (head : Head) (t : Text) :
    (scan d head t).Pairwise (fun a b => a.start < b.start ∧ a.stop ≤ b.start) ∧
    (∀ c ∈ scan d head t, ∃ before inside body after,
      t = before ++ (d.opener ++ inside) ∧ inside = body ++ (d.closer ++ after) ∧
      (∀ p q, inside = p ++ (d.closer ++ q) → body.length ≤ p.length) ∧
      c.start = before.byteLength ∧ c.stop = Text.byteLength (before ++ (d.opener ++ (body ++ d.closer))) ∧
      c.raw <:+ body ∧
      (head.leading? body = some c.raw ∨ head.leading? body = none ∧ FirstMarker head body c.raw)) ∧
    (∀ before inside, t = before ++ (d.opener ++ inside) →
      (∀ c ∈ scan d head t, ¬ (c.start ≤ before.byteLength ∧ before.byteLength < c.stop)) →
      ¬ d.closer <:+: inside ∨ ∃ body after, inside = body ++ (d.closer ++ after) ∧
        (∀ p q, inside = p ++ (d.closer ++ q) → body.length ≤ p.length) ∧
        head.leading? body = none ∧ ∀ p q raw, body = p ++ q → ¬ MarkerAt head p q raw) := by
  have hreads : Reads d head 0 t (scan d head t) := reads_scan d head t
  refine ⟨hreads.pairwise, fun c hc => ?_, fun before inside ht hout => ?_⟩
  · obtain ⟨before, inside, body, after, ht, hbody, hstart, hstop, hraw⟩ := hreads.sound c hc
    refine ⟨before, inside, body, after, ht, hbody.eq, hbody.first, by rw [hstart, Nat.zero_add], ?_,
      Head.announced?_suffix hraw, ?_⟩
    · rw [hstop, hstart, Nat.zero_add, d.span_eq, ← Text.byteLength_append]
    · rw [← Head.inside?_eq_some_iff]
      exact Head.announced?_eq_some_iff.1 hraw
  · rcases hreads.complete before inside ht (by simpa using hout) with hclose | ⟨body, after, hbody, hnone⟩
    · exact Or.inl hclose
    · obtain ⟨hlead, hin⟩ := Head.announced?_eq_none_iff.1 hnone
      exact Or.inr ⟨body, after, hbody.eq, hbody.first, hlead, Head.inside?_eq_none_iff.1 hin⟩

end Marginalia
