import Marginalia.Text.Basic
/-!
# Where a mark occurs in a text

`cut?` splits a text around the first occurrence of a mark (`cut?_eq_some_iff`), and fails exactly where the mark does
not occur (`cut?_eq_none_iff`).  The first occurrence stays the first when text before it is passed over
(`IsFirst.drop`), which is what lets one search for it serve several places; nor does text put behind
change it (`IsFirst.append`).  A mark does not reach across a character that is not in it (`append_cons_cases`).
-/
namespace Marginalia

namespace Text

/-- `before` and `after` stand around the first occurrence of `mark` in the text. -/
structure IsFirst (mark t before after : Text) : Prop where
  eq : t = before ++ (mark ++ after)
  first : ∀ p q, t = p ++ (mark ++ q) → before.length ≤ p.length

theorem infix_iff {mark t : Text} : mark <:+: t ↔ ∃ p q, t = p ++ (mark ++ q) := by
  constructor
  · rintro ⟨p, q, rfl⟩
    exact ⟨p, q, by simp⟩
  · rintro ⟨p, q, rfl⟩
    exact ⟨p, q, by simp⟩

theorem IsFirst.occurs {mark t before after : Text} (h : IsFirst mark t before after) : mark <:+: t :=
  infix_iff.2 ⟨before, after, h.eq⟩

theorem isFirst_of_cut? {mark : Text} : ∀ {t before after : Text}, cut? mark t = some (before, after) →
    IsFirst mark t before after
  | [], before, after, h => by
    refine ⟨eq_of_cut? h, fun p q _ => ?_⟩
    rw [cut?_nil] at h
    split at h
    · obtain ⟨rfl, -⟩ := by simpa using h
      exact Nat.zero_le _
    · cases h
  | c :: t, before, after, h => by
    refine ⟨eq_of_cut? h, fun p q hpq => ?_⟩
    rw [cut?_cons] at h
    split at h
    · obtain ⟨rfl, -⟩ := by simpa using h
      exact Nat.zero_le _
    · rename_i hp
      obtain ⟨⟨b, a⟩, hb, hba⟩ := Option.map_eq_some_iff.1 h
      obtain ⟨rfl, rfl⟩ := by simpa using hba
      cases p with
      | nil => exact absurd (List.isPrefixOf_iff_prefix.2 ⟨q, hpq.symm⟩) hp
      | cons x p =>
        have := (isFirst_of_cut? hb).first p q (List.cons.inj hpq).2
        simp only [List.length_cons]
        omega

theorem cut?_eq_none_iff {mark : Text} : ∀ {t : Text}, cut? mark t = none ↔ ¬ mark <:+: t
  | [] => by
    rw [cut?_nil]
    cases mark <;> simp
  | c :: t => by
    rw [cut?_cons, List.infix_cons_iff, ← List.isPrefixOf_iff_prefix]
    split
    · rename_i hp
      simp [hp]
    · rename_i hp
      rw [Option.map_eq_none_iff, cut?_eq_none_iff]
      simp [hp]

/-- **`cut?` finds the first occurrence and no other.** -/
theorem cut?_eq_some_iff {mark t before after : Text} :
    cut? mark t = some (before, after) ↔ IsFirst mark t before after := by
  constructor
  · exact isFirst_of_cut?
  · intro h
    cases hc : cut? mark t with
    | none => exact absurd h.occurs (cut?_eq_none_iff.1 hc)
    | some pair =>
      obtain ⟨b, a⟩ := pair
      have hf := isFirst_of_cut? hc
      have hlen : b.length = before.length :=
        Nat.le_antisymm (hf.first _ _ h.eq) (h.first _ _ hf.eq)
      obtain ⟨rfl, htail⟩ := List.append_inj (hf.eq.symm.trans h.eq) hlen
      rw [(List.append_inj htail rfl).2]

theorem IsFirst.drop {mark t before after : Text} (h : IsFirst mark t before after) {n : Nat}
    (hn : n ≤ before.length) : IsFirst mark (t.drop n) (before.drop n) after := by
  refine ⟨by rw [h.eq, List.drop_append_of_le_length hn], fun p q hpq => ?_⟩
  have ht : t = (t.take n ++ p) ++ (mark ++ q) := by
    rw [List.append_assoc, ← hpq, List.take_append_drop]
  have := h.first _ _ ht
  simp only [List.length_append, List.length_take, List.length_drop] at this ⊢
  omega

/-- Text put behind does not change which occurrence is the first. -/
theorem IsFirst.append {mark t before after : Text} (h : IsFirst mark t before after) (b : Text) :
    IsFirst mark (t ++ b) before (after ++ b) := by
  refine ⟨by rw [h.eq]; simp only [List.append_assoc], fun p q hpq => ?_⟩
  refine Nat.le_of_not_lt fun hlt => ?_
  -- an earlier occurrence would end in `t`
  have hends : p ++ mark <+: t := by
    have hpre : p ++ mark <+: t ++ b := ⟨q, by rw [hpq, List.append_assoc]⟩
    refine List.prefix_of_prefix_length_le hpre (List.prefix_append t b) ?_
    have := congrArg List.length h.eq
    simp only [List.length_append] at this ⊢
    omega
  obtain ⟨k, hk⟩ := hends
  have := h.first p k (by rw [← hk, List.append_assoc])
  omega

theorem contains_iff {piece : Text} : ∀ {t : Text}, contains piece t = true ↔ piece <:+: t
  | [] => by simp [contains, List.infix_nil]
  | c :: t => by
    rw [contains, List.infix_cons_iff, ← List.isPrefixOf_iff_prefix]
    split
    · rename_i hp
      simp [hp]
    · rename_i hp
      rw [contains_iff]
      simp [hp]

/-! ## Marks do not reach across what is not in them -/

/-- A mark stands before or behind a character that is not in it. -/
theorem append_cons_cases {mark a b p q : Text} {c : Char} (hc : c ∉ mark) (h : a ++ c :: b = p ++ (mark ++ q)) :
    (∃ k, a = p ++ (mark ++ k)) ∨ ∃ m, p = a ++ c :: m ∧ b = m ++ (mark ++ q) := by
  rcases List.append_eq_append_iff.1 h with ⟨m, rfl, hm⟩ | ⟨m, rfl, hm⟩
  · -- the mark begins behind `a`, so behind `c`
    cases m with
    | nil =>
      cases mark with
      | nil => exact Or.inl ⟨[], by simp⟩
      | cons x mark =>
        have hx : c = x := (List.cons.inj hm).1
        exact absurd (List.mem_cons.2 (Or.inl hx)) hc
    | cons x m =>
      obtain ⟨rfl, hb⟩ := List.cons.inj hm
      exact Or.inr ⟨m, rfl, hb⟩
  · -- it begins in `a`, and `c` would be in it if it did not end there
    rcases List.append_eq_append_iff.1 hm with ⟨k, rfl, -⟩ | ⟨k, rfl, hk⟩
    · exact Or.inl ⟨k, rfl⟩
    · cases k with
      | nil => exact Or.inl ⟨[], by simp⟩
      | cons x k =>
        have hx : c = x := (List.cons.inj hk).1
        exact absurd (by simp [hx]) hc

theorem prefix_append_cons_iff {mark a b : Text} {c : Char} (hc : c ∉ mark) : mark <+: a ++ c :: b ↔ mark <+: a := by
  refine ⟨fun h => ?_, fun h => h.trans (List.prefix_append _ _)⟩
  obtain ⟨q, hq⟩ := h
  rcases append_cons_cases hc (p := []) hq.symm with ⟨k, rfl⟩ | ⟨m, hm, -⟩
  · exact List.prefix_append _ _
  · simp at hm

theorem infix_append_cons {mark a b : Text} {c : Char} (hc : c ∉ mark) (h : mark <:+: a ++ c :: b) :
    mark <:+: a ∨ mark <:+: b := by
  obtain ⟨p, q, hpq⟩ := infix_iff.1 h
  rcases append_cons_cases hc hpq with ⟨k, hk⟩ | ⟨m, -, hm⟩
  · exact Or.inl (infix_iff.2 ⟨p, k, hk⟩)
  · exact Or.inr (infix_iff.2 ⟨m, q, hm⟩)

theorem infix_of_infix_append {mark : Text} (hne : mark ≠ []) : ∀ {a b : Text}, (∀ c ∈ a, c ∉ mark) →
    mark <:+: a ++ b → mark <:+: b
  | [], _, _, h => h
  | c :: a, b, ha, h => by
    rcases infix_append_cons (a := []) (ha c List.mem_cons_self) h with hnil | hrest
    · exact absurd (List.infix_nil.1 hnil) hne
    · exact infix_of_infix_append hne (fun x hx => ha x (List.mem_cons_of_mem _ hx)) hrest

theorem not_prefix_cons {mark : Text} (hne : mark ≠ []) {c : Char} (hc : c ∉ mark) (t : Text) : ¬ mark <+: c :: t :=
  fun h => hne (List.prefix_nil.1 ((prefix_append_cons_iff (a := []) hc).1 h))

/-- Text that holds no part of a mark is passed over. -/
theorem cut?_append_of_not_mem {mark : Text} (hne : mark ≠ []) : ∀ {a : Text}, (∀ c ∈ a, c ∉ mark) → ∀ t : Text,
    cut? mark (a ++ t) = (cut? mark t).map fun p => (a ++ p.1, p.2)
  | [], _, t => by simp
  | c :: a, ha, t => by
    have hopen : ¬ mark.isPrefixOf (c :: (a ++ t)) = true :=
      mt List.isPrefixOf_iff_prefix.1 (not_prefix_cons hne (ha c List.mem_cons_self) _)
    rw [List.cons_append, cut?_cons, if_neg hopen,
      cut?_append_of_not_mem hne (fun x hx => ha x (List.mem_cons_of_mem _ hx)) t, Option.map_map]
    rfl

/-- A mark behind text without it is the first one, if the text ends with a character that is not in the mark. -/
theorem isFirst_of_absent {mark before after : Text} (h : ¬ mark <:+: before)
    (hlast : ∀ c ∈ before.getLast?, c ∉ mark) : IsFirst mark (before ++ (mark ++ after)) before after := by
  refine ⟨rfl, fun p q hpq => ?_⟩
  rcases List.eq_nil_or_concat before with rfl | ⟨init, c, rfl⟩
  · exact Nat.zero_le _
  · have hc : c ∉ mark := hlast c (by simp)
    rw [List.concat_eq_append] at h hpq ⊢
    rw [List.append_assoc, List.singleton_append] at hpq
    rcases append_cons_cases hc hpq with ⟨k, rfl⟩ | ⟨m, rfl, -⟩
    · exact absurd (infix_iff.2 ⟨p, k ++ [c], by simp⟩) h
    · simp only [List.length_append, List.length_cons, List.length_nil]
      omega

theorem length_le_of_not_mem {c : Char} {mark s t p q : Text} (h : c ∉ s) (hpq : s ++ t = p ++ (c :: mark ++ q)) :
    s.length ≤ p.length := by
  refine Nat.le_of_not_lt fun hlt => h ?_
  have hget := congrArg (·[p.length]?) hpq
  simp only [List.getElem?_append_left hlt, List.getElem?_append_right (Nat.le_refl p.length), Nat.sub_self,
    List.cons_append, List.getElem?_cons_zero] at hget
  exact List.mem_of_getElem? hget

theorem isFirst_of_not_mem {c : Char} {mark before : Text} (h : c ∉ before) (after : Text) :
    IsFirst (c :: mark) (before ++ (c :: mark ++ after)) before after :=
  ⟨rfl, fun _ _ hpq => length_le_of_not_mem h hpq⟩

/-! ## Offsets tell places apart -/

theorem eq_nil_of_byteLength_eq_zero {t : Text} (h : byteLength t = 0) : t = [] :=
  List.length_eq_zero_iff.1 (Nat.le_zero.1 (h ▸ length_le_byteLength t))

theorem prefix_of_byteLength_le {s t s' t' : Text} (h : s ++ t = s' ++ t') (hle : byteLength s ≤ byteLength s') :
    s <+: s' := by
  rcases List.append_eq_append_iff.1 h with ⟨m, rfl, -⟩ | ⟨m, rfl, -⟩
  · exact List.prefix_append s m
  · rw [byteLength_append] at hle
    obtain rfl : m = [] := eq_nil_of_byteLength_eq_zero (by omega)
    exact ⟨[], by simp⟩

theorem eq_of_byteLength_eq {s t s' t' : Text} (h : s ++ t = s' ++ t') (heq : byteLength s = byteLength s') :
    s = s' := by
  obtain ⟨m, rfl⟩ := prefix_of_byteLength_le h (Nat.le_of_eq heq)
  rw [byteLength_append] at heq
  rw [eq_nil_of_byteLength_eq_zero (t := m) (by omega), List.append_nil]

/-! ## The last character of a kind -/

theorem exists_last {α : Type} {c : α} {t : List α} (h : c ∈ t) : ∃ a b, t = a ++ c :: b ∧ c ∉ b := by
  obtain ⟨b, a, hsplit, hb⟩ := List.eq_append_cons_of_mem (List.mem_reverse.2 h)
  refine ⟨a.reverse, b.reverse, ?_, by simpa using hb⟩
  rw [← List.reverse_reverse t, hsplit]
  simp

end Text

end Marginalia
