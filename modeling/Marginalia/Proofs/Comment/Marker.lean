import Marginalia.Comment.Marker
import Marginalia.Proofs.Text.Blank
/-!
# What a marker leaves of a body

Whatever follows a marker is the end of the body it was found in (`Head.announced?_suffix`).  And a body without a
marker inside has none inside any of its ends (`Head.inside?_eq_none_of_suffix`): the reason why one search for the
marker serves all the openers before a closer.  White space behind a marker's word is no part of the word
(`afterWord?_append_blank`).
-/
namespace Marginalia

theorem Text.afterWord?_suffix : ∀ {word t rest : Text}, Text.afterWord? word t = some rest → rest <:+ t
  | [], t, rest, h => by
    obtain rfl := Option.some.inj h
    exact List.suffix_refl _
  | _ :: _, [], _, h => by cases h
  | w :: word, c :: t, rest, h => by
    rw [Text.afterWord?] at h
    split at h
    · exact (afterWord?_suffix h).trans (List.suffix_cons c t)
    · cases h

/-- A word without white space is read in front of white space as if nothing followed. -/
theorem Text.afterWord?_append_blank {c : Char} (hc : isBlank c = true) (b : Text) : ∀ {word : Text},
    (∀ w ∈ word, isBlank (foldCase w) = false) → ∀ a : Text,
      Text.afterWord? word (a ++ c :: b) = (Text.afterWord? word a).map (· ++ c :: b)
  | [], _, _ => rfl
  | w :: word, hword, [] => by
    have hfold : ¬ (foldCase c == foldCase w) = true := by
      intro h
      have := hword w List.mem_cons_self
      rw [← beq_iff_eq.1 h, foldCase_of_isBlank hc, hc] at this
      cases this
    rw [List.nil_append]
    exact if_neg hfold
  | w :: word, hword, x :: a => by
    rw [List.cons_append, Text.afterWord?, Text.afterWord?]
    split
    · exact afterWord?_append_blank hc b (fun w hw => hword w (List.mem_cons_of_mem _ hw)) a
    · rfl

/-- White space begins no word. -/
theorem Text.afterWord?_cons_blank {c w : Char} {word : Text} (hc : isBlank c = true)
    (hword : ∀ x ∈ w :: word, isBlank (foldCase x) = false) (t : Text) : Text.afterWord? (w :: word) (c :: t) = none :=
  Text.afterWord?_append_blank hc t hword []

namespace Marker

theorem afterWord?_suffix {t rest : Text} (h : afterWord? t = some rest) : rest <:+ t := by
  unfold afterWord? at h
  split at h
  · rename_i hw
    obtain rfl := Option.some.inj h
    exact (List.suffix_cons _ _).trans (Text.afterWord?_suffix hw)
  · exact Text.afterWord?_suffix h

theorem dropAt_suffix (t : Text) : dropAt t <:+ t := by
  unfold dropAt
  split
  · exact List.suffix_cons _ _
  · exact List.suffix_refl _

theorem trimStart_suffix (t : Text) : Text.trimStart t <:+ t := List.dropWhile_suffix _

theorem leading?_suffix {body raw : Text} (h : leading? body = some raw) : raw <:+ body := by
  obtain ⟨rest, hr, rfl⟩ := Option.map_eq_some_iff.1 h
  exact (trimStart_suffix rest).trans ((afterWord?_suffix hr).trans
    ((dropAt_suffix _).trans (List.dropWhile_suffix _)))

theorem isBlank_foldCase_word : ∀ w ∈ word, isBlank (foldCase w) = false := by
  have hall : word.all (fun w => !isBlank (foldCase w)) = true := by decide
  simpa using hall

theorem afterWord?_append_blank {c : Char} (hc : isBlank c = true) (a b : Text) :
    afterWord? (a ++ c :: b) = (afterWord? a).map (· ++ c :: b) := by
  have hcolon : c ≠ ':' := ne_of_isBlank hc (by decide)
  unfold afterWord?
  rw [Text.afterWord?_append_blank hc b isBlank_foldCase_word]
  cases Text.afterWord? word a with
  | none => rfl
  | some rest =>
    cases rest with
    | nil => simp [hcolon]
    | cons x rest =>
      by_cases hx : x = ':'
      · subst hx
        rfl
      · simp [hx]

theorem afterWord?_cons_blank {c : Char} (hc : isBlank c = true) (t : Text) : afterWord? (c :: t) = none :=
  afterWord?_append_blank hc [] t

theorem dropAt_of_head {t : Text} (h : t.head? ≠ some '@') : dropAt t = t := by
  unfold dropAt
  split
  · exact absurd rfl h
  · rfl

theorem dropAt_append_blank {c : Char} (hc : isBlank c = true) (a b : Text) : dropAt (a ++ c :: b) = dropAt a ++ c :: b := by
  cases a with
  | nil => exact dropAt_of_head (by simpa using ne_of_isBlank hc (by decide : isBlank '@' = false))
  | cons x a =>
    unfold dropAt
    by_cases hx : x = '@'
    · subst hx
      rfl
    · simp [hx]

/-! ## Block comments -/

theorem inBlockFrom?_suffix : ∀ {margin : Margin} {t raw : Text}, inBlockFrom? margin t = some raw → raw <:+ t
  | _, [], _, h => by cases h
  | margin, c :: t, raw, h => by
    rw [inBlockFrom?] at h
    split at h
    · rename_i rest hr
      obtain rfl := Option.some.inj h
      split at hr
      · cases hr
      · exact (trimStart_suffix rest).trans (afterWord?_suffix hr)
    · split at h
      · rename_i rest hr
        obtain rfl := Option.some.inj h
        split at hr
        · exact ((trimStart_suffix rest).trans (afterWord?_suffix hr)).trans (List.suffix_cons c t)
        · cases hr
      · exact (inBlockFrom?_suffix h).trans (List.suffix_cons c t)

theorem inBlockFrom?_cons_eq_none {margin : Margin} {c : Char} {t : Text} :
    inBlockFrom? margin (c :: t) = none ↔
      (margin ≠ .taken → afterWord? (c :: t) = none) ∧ (c = '@' → afterWord? t = none) ∧
        inBlockFrom? (margin.next c) t = none := by
  have hword : (if margin = .taken then none else afterWord? (c :: t)) = none ↔
      (margin ≠ .taken → afterWord? (c :: t) = none) := by
    by_cases hm : margin = .taken <;> simp [hm]
  have hat : (if c = '@' then afterWord? t else none) = none ↔ (c = '@' → afterWord? t = none) := by
    by_cases hc : c = '@' <;> simp [hc]
  rw [inBlockFrom?, ← hword, ← hat]
  cases (if margin = .taken then none else afterWord? (c :: t)) with
  | some rest => simp
  | none => cases (if c = '@' then afterWord? t else none) <;> simp

/-- A margin that something stands in hides markers and shows none. -/
theorem inBlockFrom?_taken : ∀ {margin : Margin} {t : Text}, inBlockFrom? margin t = none →
    inBlockFrom? .taken t = none
  | _, [], _ => rfl
  | margin, c :: t, h => by
    obtain ⟨-, hat, hnext⟩ := inBlockFrom?_cons_eq_none.1 h
    refine inBlockFrom?_cons_eq_none.2 ⟨fun hne => absurd rfl hne, hat, ?_⟩
    by_cases hc : c = '\n'
    · -- a newline clears every margin
      simpa [Margin.next, hc] using hnext
    · simpa [Margin.next, hc] using inBlockFrom?_taken hnext

theorem inBlock?_cons_eq_none {c : Char} {t : Text} (h : inBlock? (c :: t) = none) : inBlock? t = none :=
  inBlockFrom?_taken (inBlockFrom?_cons_eq_none.1 h).2.2

/-! ## Docstrings -/

theorem afterNewlineFrom?_suffix : ∀ {found : Option Text} {t rest : Text}, afterNewlineFrom? found t = some rest →
    found = some rest ∨ '\n' :: rest <:+ t
  | _, [], _, h => Or.inl h
  | found, c :: t, rest, h => by
    rw [afterNewlineFrom?] at h
    split at h
    · rcases afterNewlineFrom?_suffix h with hf | hs
      · split at hf
        · rename_i hc
          obtain rfl := Option.some.inj hf
          exact Or.inr (hc ▸ List.suffix_refl _)
        · exact Or.inl hf
      · exact Or.inr (hs.trans (List.suffix_cons c t))
    · exact Or.inl h

theorem afterNewlineFrom?_gap {found : Option Text} {t : Text} : ∀ {gap : Text},
    (∀ c ∈ gap, isBlank c = true ∧ c ≠ '\n') → afterNewlineFrom? found (gap ++ t) = afterNewlineFrom? found t
  | [], _ => rfl
  | c :: gap, h => by
    obtain ⟨hblank, hc⟩ := h c List.mem_cons_self
    rw [List.cons_append, afterNewlineFrom?, if_pos hblank, if_neg hc]
    exact afterNewlineFrom?_gap fun x hx => h x (List.mem_cons_of_mem _ hx)

theorem afterNewlineFrom?_newline (found : Option Text) (t : Text) :
    afterNewlineFrom? found ('\n' :: t) = afterNewlineFrom? (some t) t := by
  rw [afterNewlineFrom?, if_pos (by decide), if_pos rfl]

theorem inDocstring?_pass {c : Char} (hc : foldCase c ≠ 'm') (t : Text) : inDocstring? (c :: t) = inDocstring? t := by
  have hnone : Text.afterWord? word (c :: t) = none := by
    rw [show word = 'm' :: "ermaid".toList from rfl, Text.afterWord?, if_neg]
    exact fun h => hc (beq_iff_eq.1 h)
  rw [inDocstring?, afterWord?, hnone]
  rfl

theorem inDocstring?_append : ∀ {s : Text} (t : Text), (∀ c ∈ s, foldCase c ≠ 'm') →
    inDocstring? (s ++ t) = inDocstring? t
  | [], _, _ => rfl
  | c :: s, t, h => by
    rw [List.cons_append, inDocstring?_pass (h c List.mem_cons_self)]
    exact inDocstring?_append t fun x hx => h x (List.mem_cons_of_mem _ hx)

/-- What a docstring holds behind its marker begins a line. -/
theorem inDocstring?_suffix : ∀ {t raw : Text}, inDocstring? t = some raw → '\n' :: raw <:+ t
  | [], _, h => by cases h
  | c :: t, raw, h => by
    rw [inDocstring?] at h
    split at h
    · rename_i rest hr
      obtain rfl := Option.some.inj h
      obtain ⟨behind, hw, hn⟩ := Option.bind_eq_some_iff.1 hr
      rcases afterNewlineFrom?_suffix hn with hf | hs
      · cases hf
      · exact hs.trans (afterWord?_suffix hw)
    · exact (inDocstring?_suffix h).trans (List.suffix_cons c t)

theorem inDocstring?_cons_eq_none {c : Char} {t : Text} (h : inDocstring? (c :: t) = none) :
    inDocstring? t = none := by
  rw [inDocstring?] at h
  split at h
  · cases h
  · exact h

end Marker

namespace Head

theorem inside?_suffix {head : Head} {body raw : Text} (h : head.inside? body = some raw) : raw <:+ body := by
  cases head with
  | block => exact Marker.inBlockFrom?_suffix h
  | docstring => exact (List.suffix_cons _ raw).trans (Marker.inDocstring?_suffix h)

theorem inside?_cons_eq_none {head : Head} {c : Char} {t : Text} (h : head.inside? (c :: t) = none) :
    head.inside? t = none := by
  cases head with
  | block => exact Marker.inBlock?_cons_eq_none h
  | docstring => exact Marker.inDocstring?_cons_eq_none h

/-- **Where a body holds no marker, no end of it does.** -/
theorem inside?_eq_none_of_suffix {head : Head} : ∀ {body later : Text}, head.inside? body = none →
    later <:+ body → head.inside? later = none
  | [], later, h, hs => by rwa [List.suffix_nil.1 hs]
  | c :: t, later, h, hs => by
    rcases List.suffix_cons_iff.1 hs with rfl | hs
    · exact h
    · exact inside?_eq_none_of_suffix (inside?_cons_eq_none h) hs

theorem announced?_eq_some_iff {head : Head} {body raw : Text} :
    head.announced? body = some raw ↔
      head.leading? body = some raw ∨ head.leading? body = none ∧ head.inside? body = some raw := by
  unfold announced?
  cases head.leading? body <;> simp

theorem announced?_eq_none_iff {head : Head} {body : Text} :
    head.announced? body = none ↔ head.leading? body = none ∧ head.inside? body = none := by
  unfold announced?
  cases head.leading? body <;> simp

/-- **What a comment holds behind its marker is the end of its body.** -/
theorem announced?_suffix {head : Head} {body raw : Text} (h : head.announced? body = some raw) : raw <:+ body := by
  rcases announced?_eq_some_iff.1 h with hl | ⟨-, hi⟩
  · cases head with
    | block => exact Marker.leading?_suffix hl
    | docstring => cases hl
  · exact inside?_suffix hi

end Head

end Marginalia
