import Marginalia.Proofs.Comment.Sighting
/-!
# The comments of a text that grows

A comment between delimiters is decided by the text up to its closer, so text put behind it changes nothing
(`Delimiters.notice?_append`).  It can turn up as new only if it ends in the new text, and then nothing behind its opener
was a comment before (`Delimiters.notice?_of_append`).  So what was seen stays the beginning of what is seen
(`sightings_append`), wherever the text was cut.

Where the text was cut between two lines and every comment was closed, the new text is read as if it stood alone
(`sightings_append_of_local`).  That holds for runs of documentation lines too, unless the new text goes on with one.
-/
namespace Marginalia

/-- The comment with more text behind it. -/
def Notice.append (b : Text) (n : Notice) : Notice := { n with after := n.after ++ b }

/-! ## One comment -/

namespace Delimiters

variable {d : Delimiters} {head : Head} {t : Text} {n : Notice}

/-- **A comment is decided by the text up to its closer.** -/
theorem notice?_append (h : d.notice? head t = some n) (b : Text) : d.notice? head (t ++ b) = some (n.append b) := by
  obtain ⟨inside, body, rfl, hbody, hraw, hwhole⟩ := notice?_eq_some_iff.1 h
  exact notice?_eq_some_iff.2 ⟨inside ++ b, body, List.append_assoc _ _ _, hbody.append b, hraw, hwhole⟩

theorem notice?_closed {inside : Text} (h : d.closer <:+: inside) (b : Text) :
    d.notice? head (d.opener ++ inside ++ b) = (d.notice? head (d.opener ++ inside)).map (Notice.append b) := by
  cases hcut : Text.cut? d.closer inside with
  | none => exact absurd h (Text.cut?_eq_none_iff.1 hcut)
  | some p =>
    have hfirst := (Text.cut?_eq_some_iff.1 hcut).append b
    rw [List.append_assoc, notice?_opener, notice?_opener, hcut, Text.cut?_eq_some_iff.2 hfirst, Option.bind_some,
      Option.bind_some, Option.map_map]
    rfl

theorem notice?_eq_none_of_unclosed {inside : Text} (h : ¬ d.closer <:+: inside) :
    d.notice? head (d.opener ++ inside) = none := by
  rw [notice?_opener, Text.cut?_eq_none_iff.2 h, Option.bind_none]

/-- **A comment that text put behind makes one ends in that text**, and no comment began behind its opener. -/
theorem notice?_of_append {b : Text} (hnone : d.notice? head t = none) (h : d.notice? head (t ++ b) = some n) :
    t.length < n.whole.length ∧ ∀ s, s <:+ t → d.notice? head s = none := by
  obtain ⟨inside, body, ht, hbody, -, hwhole⟩ := notice?_eq_some_iff.1 h
  by_cases hopen : d.opener <+: t
  · obtain ⟨rest, rfl⟩ := hopen
    rw [List.append_assoc, List.append_cancel_left_eq] at ht
    have hunclosed : ¬ d.closer <:+: rest := by
      intro hclose
      rw [notice?_closed hclose, hnone] at h
      cases h
    constructor
    · refine Nat.lt_of_not_le fun hle => hunclosed ?_
      have hbegins : body ++ d.closer <+: rest ++ b := ⟨n.after, by rw [ht, hbody.eq, List.append_assoc]⟩
      have hends : body ++ d.closer <+: rest := by
        refine List.prefix_of_prefix_length_le hbegins (List.prefix_append _ _) ?_
        rw [hwhole] at hle
        simp only [List.length_append] at hle ⊢
        omega
      exact (List.suffix_append body d.closer).isInfix.trans hends.isInfix
    · intro s hs
      by_cases hopen : d.opener <+: s
      · obtain ⟨later, rfl⟩ := hopen
        refine notice?_eq_none_of_unclosed fun hclose => hunclosed (hclose.trans ?_)
        have hlater : later <:+ d.opener ++ rest := (List.suffix_append _ _).trans hs
        refine (List.suffix_of_suffix_length_le hlater (List.suffix_append _ _) ?_).isInfix
        have := hs.length_le
        simp only [List.length_append] at this
        omega
      · exact notice?_eq_none hopen head
  · -- the opener itself ends in the new text
    have hshort : t.length < d.opener.length := by
      refine Nat.lt_of_not_le fun hle => hopen ?_
      exact List.prefix_of_prefix_length_le ⟨inside, ht.symm⟩ (List.prefix_append t b) hle
    constructor
    · rw [hwhole, List.length_append]
      omega
    · intro s hs
      refine notice?_eq_none (fun hopen => ?_) head
      have := hopen.length_le
      have := hs.length_le
      omega

/-- A text that ends with a newline shows the opener at its start, whatever follows. -/
theorem prefix_of_endsLine (hopener : '\n' ∉ d.opener) (ht : t.EndsLine) (hne : t ≠ []) {b : Text}
    (h : d.opener <+: t ++ b) : d.opener <+: t := by
  obtain ⟨init, c, rfl⟩ := List.eq_nil_or_concat t |>.resolve_left hne
  obtain rfl := ht c (by simp)
  rw [List.concat_eq_append] at h ⊢
  rw [List.append_assoc, List.singleton_append, Text.prefix_append_cons_iff hopener] at h
  exact h.trans (List.prefix_append _ _)

/-- Where a text ends with a newline and closes its comments, no text put behind decides one of them. -/
theorem notice?_append_of_closed (hopener : '\n' ∉ d.opener) (ht : t.EndsLine) (hne : t ≠ [])
    (hclosed : ∀ p inside, t = p ++ (d.opener ++ inside) → d.closer <:+: inside) (b : Text) :
    d.notice? head (t ++ b) = (d.notice? head t).map (Notice.append b) := by
  by_cases hopen : d.opener <+: t ++ b
  · obtain ⟨inside, rfl⟩ := prefix_of_endsLine hopener ht hne hopen
    exact notice?_closed (hclosed [] inside rfl) b
  · rw [notice?_eq_none hopen, notice?_eq_none fun h => hopen (h.trans (List.prefix_append _ _))]
    rfl

end Delimiters

/-- No text that begins with another line than one of documentation decides a run of the lines before it. -/
theorem DocRun.notice?_append {t b : Text} (ht : t.EndsLine) (hne : t ≠ []) (hb : beginsLine b = false) :
    notice? (t ++ b) = (notice? t).map (Notice.append b) := by
  by_cases hmem : '\n' ∈ t
  · obtain ⟨line, below, rfl, hline⟩ := List.eq_append_cons_of_mem hmem
    have hbelow : Text.EndsLine below := ht.suffix ((List.suffix_cons _ _).trans (List.suffix_append _ _))
    rw [List.append_assoc, List.cons_append, notice?_line hline, notice?_line hline, run_append hbelow hb]
    split <;> rfl
  · exact absurd (ht.eq_nil hmem) hne

namespace CommentStyle

/-! ## All comments -/

variable {style : CommentStyle}

/-- **What was seen stays the beginning of what is seen**, and all else ends behind the old text. -/
theorem sightings_append {d : Delimiters} {head : Head} (henc : style.enclosure? = some (d, head)) (before a b : Text) :
    ∃ later, style.sightings before (a ++ b) = style.sightings before a ++ later ∧
      ∀ s ∈ later, (before ++ a).length < (s.before ++ s.whole).length := by
  fun_induction sightings style before a with
  | case1 before =>
    refine ⟨style.sightings before b, rfl, fun s hs => ?_⟩
    obtain ⟨passed, after, -, hbefore, hnotice⟩ := sightings_sound hs
    have := List.length_pos_iff.2 (notice?_parts hnotice).2
    rw [hbefore]
    simp only [List.length_append, List.length_nil] at this ⊢
    omega
  | case2 before c t n hn _ ih =>
    obtain ⟨later, hlater, hpast⟩ := ih
    have hparts := (notice?_parts hn).1
    rw [notice?_enclosed henc] at hn
    have hnotice := Delimiters.notice?_append hn b
    rw [← notice?_enclosed henc] at hnotice
    refine ⟨later, ?_, fun s hs => ?_⟩
    · rw [sightings_take hnotice, List.cons_append, ← hlater]
      rfl
    · rw [hparts, ← List.append_assoc]
      exact hpast s hs
  | case3 before c t hn ih =>
    cases hb : style.notice? (c :: t ++ b) with
    | none =>
      obtain ⟨later, hlater, hpast⟩ := ih
      refine ⟨later, ?_, fun s hs => ?_⟩
      · rw [List.cons_append] at hb
        rw [List.cons_append, sightings_pass hb, hlater]
      · rw [List.append_cons]
        exact hpast s hs
    | some n =>
      rw [notice?_enclosed henc] at hn hb
      obtain ⟨hlong, hnone⟩ := Delimiters.notice?_of_append hn hb
      rw [← notice?_enclosed henc] at hb
      -- nothing is seen in the rest of the old text
      have hnil : style.sightings (before ++ [c]) t = [] := sightings_eq_nil fun s hs => by
        rw [notice?_enclosed henc]
        exact hnone s (hs.trans (List.suffix_cons c t))
      refine ⟨_, by rw [hnil, List.nil_append], fun s hs => ?_⟩
      rw [sightings_take hb] at hs
      rcases List.mem_cons.1 hs with rfl | hs
      · simp only [List.length_append] at hlong ⊢
        omega
      · obtain ⟨passed, after, -, hbefore, -⟩ := sightings_sound hs
        rw [hbefore]
        simp only [List.length_append] at hlong ⊢
        omega

/-- **Where the new text decides no comment of the old one, it is read as if it stood alone.** -/
theorem sightings_append_of_local {a b : Text}
    (h : ∀ s, s <:+ a → s ≠ [] → style.notice? (s ++ b) = (style.notice? s).map (Notice.append b)) (before : Text) :
    style.sightings before (a ++ b) = style.sightings before a ++ style.sightings (before ++ a) b := by
  fun_induction sightings style before a with
  | case1 before => rw [List.nil_append, List.nil_append, List.append_nil]
  | case2 before c t n hn _ ih =>
    have hparts := notice?_parts hn
    have hsuffix : n.after <:+ c :: t := ⟨n.whole, hparts.1.symm⟩
    have hnotice : style.notice? (c :: t ++ b) = some (n.append b) := by
      rw [h _ (List.suffix_refl _) (List.cons_ne_nil c t), hn, Option.map_some]
    rw [sightings_take hnotice, hparts.1, ← List.append_assoc, List.cons_append,
      ← ih fun s hs => h s (hs.trans hsuffix)]
    rfl
  | case3 before c t hn ih =>
    have hnotice : style.notice? (c :: (t ++ b)) = none := by
      rw [← List.cons_append, h _ (List.suffix_refl _) (List.cons_ne_nil c t), hn, Option.map_none]
    rw [List.cons_append, sightings_pass hnotice, ih fun s hs => h s (hs.trans (List.suffix_cons c t)), List.append_assoc,
      List.singleton_append]

end CommentStyle

end Marginalia
