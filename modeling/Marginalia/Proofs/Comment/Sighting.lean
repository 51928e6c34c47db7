import Marginalia.Proofs.Comment.Style
/-!
# The comments of a text with the text before them

A comment of any style that announces a diagram is recognized by what begins with it (`CommentStyle.notice?`): the rest
of the text decides whether one begins at its very start, and where it ends.  `sightings` goes through a text by that
alone.  It sees the comments that the scans find (`candidates_eq_map_sightings`), for runs of documentation lines as for
comments between delimiters, and keeps the text before each in place of an offset.  So a law about the comments of a
text is one induction along `sightings`, with what it needs to know of one comment as its premise.
-/
namespace Marginalia

/-- A comment that a text begins with and that announces a diagram. -/
structure Notice where
  /-- The comment. -/
  whole : Text
  /-- Its body behind the marker. -/
  raw : Text
  /-- What follows the comment. -/
  after : Text

/-- A comment that announces a diagram, with the text before it. -/
structure Sighting where
  before : Text
  whole : Text
  raw : Text

/-- The sighting with more text before it. -/
def Sighting.behind (p : Text) (s : Sighting) : Sighting := { s with before := p ++ s.before }

def Sighting.candidate (s : Sighting) : Candidate :=
  ⟨s.before.byteLength, Text.byteLength (s.before ++ s.whole), s.raw⟩

/-! ## At the start of a text -/

def Delimiters.notice? (d : Delimiters) (head : Head) (t : Text) : Option Notice :=
  if d.opener.isPrefixOf t then
    (d.body? t).bind fun p => (head.announced? p.1).map (⟨d.opener ++ (p.1 ++ d.closer), ·, p.2⟩)
  else none

def DocRun.notice? (t : Text) : Option Notice :=
  (afterMarkerLine? t).bind fun below =>
    if (run below).1.isEmpty then none
    else some ⟨t.takeWhile (· != '\n') ++ '\n' :: (run below).1, (run below).1, (run below).2⟩

theorem Delimiters.notice?_opener (d : Delimiters) (head : Head) (inside : Text) :
    d.notice? head (d.opener ++ inside) = (Text.cut? d.closer inside).bind fun p =>
      (head.announced? p.1).map (⟨d.opener ++ (p.1 ++ d.closer), ·, p.2⟩) := by
  rw [notice?, if_pos (List.isPrefixOf_iff_prefix.2 (List.prefix_append _ _)), d.body?_opener]

theorem Delimiters.notice?_eq_none {d : Delimiters} {t : Text} (h : ¬ d.opener <+: t) (head : Head) :
    d.notice? head t = none := by
  rw [notice?, if_neg (mt List.isPrefixOf_iff_prefix.1 h)]

theorem Delimiters.notice?_eq_some_iff {d : Delimiters} {head : Head} {t : Text} {n : Notice} :
    d.notice? head t = some n ↔ ∃ inside body, t = d.opener ++ inside ∧ Text.IsFirst d.closer inside body n.after ∧
      head.announced? body = some n.raw ∧ n.whole = d.opener ++ (body ++ d.closer) := by
  constructor
  · intro h
    by_cases hopen : d.opener.isPrefixOf t = true
    · obtain ⟨inside, rfl⟩ := List.isPrefixOf_iff_prefix.1 hopen
      rw [notice?_opener] at h
      obtain ⟨⟨body, after⟩, hbody, hread⟩ := Option.bind_eq_some_iff.1 h
      obtain ⟨raw, hraw, rfl⟩ := Option.map_eq_some_iff.1 hread
      exact ⟨inside, body, rfl, Text.cut?_eq_some_iff.1 hbody, hraw, rfl⟩
    · rw [notice?, if_neg hopen] at h
      cases h
  · rintro ⟨inside, body, rfl, hbody, hraw, hwhole⟩
    rw [notice?_opener, Text.cut?_eq_some_iff.2 hbody, Option.bind_some, hraw, Option.map_some, ← hwhole]

namespace DocRun

/-- A run is noticed by the line above it. -/
theorem notice?_line {line : Text} (hline : '\n' ∉ line) (below : Text) :
    notice? (line ++ '\n' :: below) =
      if isMarkerLine line ∧ (run below).1 ≠ [] then some ⟨line ++ '\n' :: (run below).1, (run below).1, (run below).2⟩
      else none := by
  rw [notice?, afterMarkerLine?_line hline, takeWhile_line hline]
  cases isMarkerLine line with
  | false => simp
  | true => cases hrun : (run below).1 <;> simp [hrun]

theorem notice?_last {t : Text} (h : '\n' ∉ t) : notice? t = none := by
  rw [notice?]
  cases hbelow : afterMarkerLine? t with
  | none => rfl
  | some below => exact absurd ((afterMarkerLine?_suffix hbelow).subset List.mem_cons_self) h

theorem notice?_eq_some_iff {t : Text} {n : Notice} : notice? t = some n ↔ ∃ line, '\n' ∉ line ∧
    isMarkerLine line = true ∧ t = line ++ '\n' :: (n.raw ++ n.after) ∧ run (n.raw ++ n.after) = (n.raw, n.after) ∧
      n.raw ≠ [] ∧ n.whole = line ++ '\n' :: n.raw := by
  constructor
  · intro h
    by_cases hmem : '\n' ∈ t
    · obtain ⟨line, below, rfl, hline⟩ := List.eq_append_cons_of_mem hmem
      rw [notice?_line hline] at h
      split at h
      · rename_i hrun
        obtain rfl := Option.some.inj h
        have hsplit : (run below).1 ++ (run below).2 = below := run_parts below
        exact ⟨line, hline, hrun.1, by rw [hsplit], by rw [hsplit], hrun.2, rfl⟩
      · cases h
    · rw [notice?_last hmem] at h
      cases h
  · rintro ⟨line, hline, hmarker, rfl, hrun, hraw, hwhole⟩
    rw [notice?_line hline, hrun, if_pos ⟨hmarker, hraw⟩, ← hwhole]

end DocRun

namespace CommentStyle

/-- The comment of the style that the text begins with, if it announces a diagram. -/
def notice? (style : CommentStyle) (t : Text) : Option Notice :=
  match style.enclosure? with
  | some (d, head) => d.notice? head t
  | none => DocRun.notice? t

variable {style : CommentStyle} {d : Delimiters} {head : Head}

theorem notice?_enclosed (h : style.enclosure? = some (d, head)) (t : Text) : style.notice? t = d.notice? head t := by
  rw [notice?, h]

theorem eq_docRun (h : style.enclosure? = none) : style = docRun := by
  cases style <;> first | rfl | cases h

/-- The text is put together again from the comment and what follows it. -/
theorem notice?_parts {t : Text} {n : Notice} (h : style.notice? t = some n) :
    t = n.whole ++ n.after ∧ n.whole ≠ [] := by
  cases henc : style.enclosure? with
  | some pair =>
    obtain ⟨d, head⟩ := pair
    rw [notice?_enclosed henc] at h
    obtain ⟨inside, body, rfl, hbody, -, hwhole⟩ := Delimiters.notice?_eq_some_iff.1 h
    rw [hwhole, hbody.eq]
    exact ⟨by simp only [List.append_assoc], by simp [d.opener_ne_nil]⟩
  | none =>
    obtain rfl := eq_docRun henc
    obtain ⟨line, -, -, rfl, -, -, hwhole⟩ := DocRun.notice?_eq_some_iff.1 h
    rw [hwhole]
    exact ⟨by simp only [List.append_assoc, List.cons_append], by simp⟩

theorem length_after_lt {c : Char} {t : Text} {n : Notice} (h : style.notice? (c :: t) = some n) :
    n.after.length < t.length + 1 := by
  obtain ⟨ht, hne⟩ := notice?_parts h
  have hlen := congrArg List.length ht
  have := List.length_pos_iff.2 hne
  simp only [List.length_cons, List.length_append] at hlen
  omega

/-- The comments of a text behind `before` that announce a diagram, from left to right. -/
def sightings (style : CommentStyle) (before : Text) : Text → List Sighting
  | [] => []
  | c :: t =>
    match h : style.notice? (c :: t) with
    | some n =>
      have := length_after_lt h
      ⟨before, n.whole, n.raw⟩ :: sightings style (before ++ n.whole) n.after
    | none => sightings style (before ++ [c]) t
termination_by t => t.length

theorem sightings_pass {before : Text} {c : Char} {t : Text} (h : style.notice? (c :: t) = none) :
    style.sightings before (c :: t) = style.sightings (before ++ [c]) t := by
  rw [sightings]
  split
  · rename_i n hn
    rw [h] at hn
    cases hn
  · rfl

theorem sightings_take {before t : Text} {n : Notice} (h : style.notice? t = some n) :
    style.sightings before t = ⟨before, n.whole, n.raw⟩ :: style.sightings (before ++ n.whole) n.after := by
  obtain ⟨ht, hne⟩ := notice?_parts h
  cases t with
  | nil => exact absurd (List.append_eq_nil_iff.1 ht.symm).1 hne
  | cons c t =>
    rw [sightings]
    split
    · rename_i n' hn
      obtain rfl := Option.some.inj (h.symm.trans hn)
      rfl
    · rename_i hn
      rw [h] at hn
      cases hn

/-! ## The sightings are the candidates -/

theorem scanPlainly_eq_map_sightings (h : style.enclosure? = some (d, head)) (before t : Text) :
    scanPlainly d head before.byteLength t = (style.sightings before t).map Sighting.candidate := by
  fun_induction sightings style before t with
  | case1 before => rw [scanPlainly, List.map_nil]
  | case2 before c t n hn _ ih =>
    obtain ⟨hparts, hne⟩ := notice?_parts hn
    rw [notice?_enclosed h] at hn
    obtain ⟨inside, body, ht, hbody, hraw, hwhole⟩ := Delimiters.notice?_eq_some_iff.1 hn
    have hspan : before.byteLength + d.span body = (before ++ n.whole).byteLength := by
      rw [Text.byteLength_append before, hwhole, d.span_eq]
    rw [ht, scanPlainly_taken hbody hraw, hspan, ih]
    rfl
  | case3 before c t hn ih =>
    rw [notice?_enclosed h, Delimiters.notice?] at hn
    have hnext : (before ++ [c]).byteLength = before.byteLength + c.utf8Size := by
      rw [Text.byteLength_append, Text.byteLength_cons, Text.byteLength_nil, Nat.add_zero]
    rw [hnext] at ih
    rw [scanPlainly, ← ih]
    split
    · rename_i hopen
      rw [if_pos hopen] at hn
      split
      · rfl
      · rename_i body after hbody
        rw [hbody, Option.bind_some, Option.map_eq_none_iff] at hn
        rw [hn]
    · rfl

theorem scanFrom_eq_map_sightings (before : Text) (found : List Candidate) (t : Text) :
    DocRun.scanFrom before.byteLength found t = found.reverse ++ (docRun.sightings before t).map Sighting.candidate := by
  fun_induction sightings docRun before t generalizing found with
  | case1 before => rw [DocRun.scanFrom, List.map_nil, List.append_nil]
  | case2 before c t n hn _ ih =>
    obtain ⟨line, hline, hmarker, ht, hrun, hraw, hwhole⟩ := DocRun.notice?_eq_some_iff.1 hn
    have hbelow : DocRun.afterMarkerLine? (c :: t) = some (n.raw ++ n.after) := by
      rw [ht, DocRun.afterMarkerLine?_line hline, if_pos hmarker]
    have hstop : before.byteLength + Text.byteLength line + 1 + n.raw.byteLength = (before ++ n.whole).byteLength := by
      rw [hwhole, Text.byteLength_append, Text.byteLength_append, Text.byteLength_cons, Nat.add_assoc, Nat.add_assoc]
      rfl
    rw [DocRun.scanFrom]
    split
    · rename_i below h
      obtain rfl := Option.some.inj (hbelow.symm.trans h)
      rw [if_neg (by rwa [hrun, List.isEmpty_iff])]
      dsimp only
      rw [hrun, ht, DocRun.takeWhile_line hline, hstop, ih]
      simp [Sighting.candidate]
    · rename_i h
      rw [hbelow] at h
      cases h
  | case3 before c t hn ih =>
    have hnext : (before ++ [c]).byteLength = before.byteLength + c.utf8Size := by
      rw [Text.byteLength_append, Text.byteLength_cons, Text.byteLength_nil, Nat.add_zero]
    rw [hnext] at ih
    rw [DocRun.scanFrom, ← ih]
    split
    · rename_i below h
      have hempty : (DocRun.run below).1.isEmpty = true := by
        change DocRun.notice? (c :: t) = none at hn
        rw [DocRun.notice?, h, Option.bind_some] at hn
        by_cases hrun : (DocRun.run below).1.isEmpty = true
        · exact hrun
        · rw [if_neg hrun] at hn
          cases hn
      rw [if_pos hempty]
    · rfl

/-- **The sightings of a text are its candidates.** -/
theorem candidates_eq_map_sightings (style : CommentStyle) (t : Text) :
    style.candidates t = (style.sightings [] t).map Sighting.candidate := by
  cases henc : style.enclosure? with
  | some pair =>
    obtain ⟨d, head⟩ := pair
    rw [candidates_eq henc]
    exact scanPlainly_eq_map_sightings henc [] t
  | none =>
    obtain rfl := eq_docRun henc
    exact scanFrom_eq_map_sightings [] [] t

/-! ## What is seen -/

/-- **Every sighting is a comment of the text**, recognized where it begins. -/
theorem sightings_sound {before t : Text} {s : Sighting} (hs : s ∈ style.sightings before t) :
    ∃ passed after, t = passed ++ (s.whole ++ after) ∧ s.before = before ++ passed ∧
      style.notice? (s.whole ++ after) = some ⟨s.whole, s.raw, after⟩ := by
  fun_induction sightings style before t with
  | case1 => cases hs
  | case2 before c t n hn _ ih =>
    obtain ⟨ht, -⟩ := notice?_parts hn
    rcases List.mem_cons.1 hs with rfl | hs
    · exact ⟨[], n.after, ht, (List.append_nil before).symm, by rw [← ht, hn]⟩
    · obtain ⟨passed, after, hafter, hbefore, hnotice⟩ := ih hs
      refine ⟨n.whole ++ passed, after, ?_, ?_, hnotice⟩
      · rw [ht, hafter, List.append_assoc]
      · rw [hbefore, List.append_assoc]
  | case3 before c t hn ih =>
    obtain ⟨passed, after, ht, hbefore, hnotice⟩ := ih hs
    exact ⟨c :: passed, after, by rw [ht, List.cons_append], by rw [hbefore, List.append_assoc, List.singleton_append], hnotice⟩

/-- **The comments of a style follow one another in the text.** -/
theorem pairwise_sightings (style : CommentStyle) (before t : Text) :
    (style.sightings before t).Pairwise fun a b => a.before ++ a.whole <+: b.before := by
  fun_induction sightings style before t with
  | case1 => exact List.Pairwise.nil
  | case2 before c t n hn _ ih =>
    refine List.pairwise_cons.2 ⟨fun s hs => ?_, ih⟩
    obtain ⟨passed, after, -, hbefore, -⟩ := sightings_sound hs
    exact ⟨passed, hbefore.symm⟩
  | case3 before c t hn ih => exact ih

/-- **A comment that announces a diagram begins inside a sighting**, or begins one. -/
theorem sightings_complete {before t passed rest : Text} (ht : t = passed ++ rest) (h : style.notice? rest ≠ none) :
    ∃ s ∈ style.sightings before t, s.before.byteLength ≤ Text.byteLength (before ++ passed) ∧
      Text.byteLength (before ++ passed) < Text.byteLength (s.before ++ s.whole) := by
  fun_induction sightings style before t generalizing passed with
  | case1 before =>
    obtain ⟨-, rfl⟩ := List.append_eq_nil_iff.1 ht.symm
    obtain ⟨n, hn⟩ := Option.ne_none_iff_exists'.1 h
    obtain ⟨hparts, hne⟩ := notice?_parts hn
    exact absurd (List.append_eq_nil_iff.1 hparts.symm).1 hne
  | case2 before c t n hn _ ih =>
    obtain ⟨hparts, -⟩ := notice?_parts hn
    by_cases hlt : passed.byteLength < n.whole.byteLength
    · refine ⟨_, List.mem_cons_self, ?_, ?_⟩ <;> simp only [Text.byteLength_append] <;> omega
    · obtain ⟨behind, rfl⟩ := Text.prefix_of_byteLength_le (hparts.symm.trans ht) (Nat.le_of_not_lt hlt)
      rw [List.append_assoc] at ht
      obtain ⟨s, hs, hspan⟩ := ih (List.append_cancel_left (hparts.symm.trans ht))
      rw [List.append_assoc] at hspan
      exact ⟨s, List.mem_cons_of_mem _ hs, hspan⟩
  | case3 before c t hn ih =>
    cases passed with
    | nil =>
      obtain rfl : c :: t = rest := ht
      exact absurd hn h
    | cons x passed =>
      obtain ⟨rfl, htail⟩ := List.cons.inj ht
      obtain ⟨s, hs, hspan⟩ := ih htail
      rw [List.append_assoc] at hspan
      exact ⟨s, hs, hspan⟩

theorem sightings_eq_nil {before t : Text} (h : ∀ s, s <:+ t → style.notice? s = none) :
    style.sightings before t = [] := by
  induction t generalizing before with
  | nil => rw [sightings]
  | cons c t ih =>
    rw [sightings_pass (h _ (List.suffix_refl _))]
    exact ih fun s hs => h s (hs.trans (List.suffix_cons c t))

/-- Text put in front of the sightings. -/
theorem sightings_behind (p before t : Text) :
    style.sightings (p ++ before) t = (style.sightings before t).map (Sighting.behind p) := by
  fun_induction sightings style before t with
  | case1 => rw [sightings, List.map_nil]
  | case2 before c t n hn _ ih =>
    rw [sightings_take hn, List.append_assoc, ih, List.map_cons]
    rfl
  | case3 before c t hn ih => rw [sightings_pass hn, List.append_assoc, ih]

end CommentStyle

end Marginalia
