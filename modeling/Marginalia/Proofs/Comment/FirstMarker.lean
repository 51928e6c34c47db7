import Marginalia.Proofs.Comment.Marker
/-!
# The first marker in a body

`MarkerAt` says where in a body a marker stands, place by place: at an `@` with the word behind it, at the word where
it leads a line of a block comment, at the word where it ends a line of a docstring.  `Head.inside?` reads a body once
from left to right and keeps track of the margin of the present line; it finds the marker at the first of these places
and fails where there is none (`Head.inside?_eq_some_iff`, `Head.inside?_eq_none_iff`).
-/
namespace Marginalia

namespace Marker

/-- A text that ends with a newline, white space and at most one star. -/
def LeadsLine (before : Text) : Prop :=
  ∃ p gap star gap' : Text, before = p ++ '\n' :: (gap ++ (star ++ gap')) ∧ (∀ c ∈ gap, isBlank c) ∧
    (star = [] ∨ star = ['*']) ∧ ∀ c ∈ gap', isBlank c

/-- What stands on the last line of a text, as seen from its end. -/
def Margin.after (before : Text) : Margin := before.foldl Margin.next .taken

theorem Margin.after_concat (before : Text) (c : Char) : Margin.after (before ++ [c]) = (Margin.after before).next c := by
  simp [Margin.after]

/-- The shape of a text whose last line has the given margin. -/
def Margin.Shape (before : Text) : Margin → Prop
  | .taken => True
  | .clear => ∃ p gap : Text, before = p ++ '\n' :: gap ∧ ∀ c ∈ gap, isBlank c
  | .starred => ∃ p gap gap' : Text, before = p ++ '\n' :: (gap ++ '*' :: gap') ∧ (∀ c ∈ gap, isBlank c) ∧
      ∀ c ∈ gap', isBlank c

theorem forall_mem_concat {p : Char → Prop} {t : Text} {c : Char} (h : ∀ x ∈ t, p x) (hc : p c) :
    ∀ x ∈ t ++ [c], p x := by
  intro x hx
  rcases List.mem_append.1 hx with hx | hx
  · exact h x hx
  · rwa [List.mem_singleton.1 hx]

theorem Margin.shape_next {before : Text} {margin : Margin} (h : margin.Shape before) (c : Char) :
    (margin.next c).Shape (before ++ [c]) := by
  unfold Margin.next
  by_cases hn : c = '\n'
  · rw [if_pos hn]
    exact ⟨before, [], by rw [hn], fun x hx => by cases hx⟩
  rw [if_neg hn]
  by_cases hb : isBlank c
  · rw [if_pos hb]
    cases margin with
    | taken => trivial
    | clear =>
      obtain ⟨p, gap, rfl, hgap⟩ := h
      exact ⟨p, gap ++ [c], by simp, forall_mem_concat hgap hb⟩
    | starred =>
      obtain ⟨p, gap, gap', rfl, hgap, hgap'⟩ := h
      exact ⟨p, gap, gap' ++ [c], by simp, hgap, forall_mem_concat hgap' hb⟩
  rw [if_neg hb]
  split
  · rename_i hstar
    obtain ⟨rfl, rfl⟩ := hstar
    obtain ⟨p, gap, rfl, hgap⟩ := h
    exact ⟨p, gap, [], by simp, hgap, fun x hx => by cases hx⟩
  · trivial

theorem Margin.shape_foldl : ∀ (t : Text) {before : Text} {margin : Margin}, margin.Shape before →
    (t.foldl Margin.next margin).Shape (before ++ t)
  | [], _, _, h => by rwa [List.append_nil]
  | c :: t, before, margin, h => by
    rw [List.append_cons, List.foldl_cons]
    exact Margin.shape_foldl t (Margin.shape_next h c)

theorem Margin.shape_after (before : Text) : (Margin.after before).Shape before :=
  @Margin.shape_foldl before [] .taken trivial

theorem Margin.foldl_blank {margin : Margin} (hm : margin ≠ .taken) : ∀ {gap : Text}, (∀ c ∈ gap, isBlank c) →
    gap.foldl Margin.next margin = margin ∨ gap.foldl Margin.next margin = .clear
  | [], _ => Or.inl rfl
  | c :: gap, h => by
    rw [List.foldl_cons]
    have hgap : ∀ x ∈ gap, isBlank x := fun x hx => h x (List.mem_cons_of_mem c hx)
    by_cases hc : c = '\n'
    · have hnext : margin.next c = .clear := if_pos hc
      rw [hnext]
      rcases Margin.foldl_blank (show Margin.clear ≠ .taken by decide) hgap with h | h <;> exact Or.inr h
    · have hnext : margin.next c = margin := by
        rw [Margin.next, if_neg hc, if_pos (h c List.mem_cons_self)]
      rw [hnext]
      exact Margin.foldl_blank hm hgap

/-- **The margin tells where a marker may stand.** -/
theorem Margin.after_ne_taken_iff (before : Text) : Margin.after before ≠ .taken ↔ LeadsLine before := by
  constructor
  · intro h
    have hshape := Margin.shape_after before
    cases hm : Margin.after before with
    | taken => exact absurd hm h
    | clear =>
      rw [hm] at hshape
      obtain ⟨p, gap, rfl, hgap⟩ := hshape
      exact ⟨p, gap, [], [], by simp, hgap, Or.inl rfl, fun c hc => by cases hc⟩
    | starred =>
      rw [hm] at hshape
      obtain ⟨p, gap, gap', rfl, hgap, hgap'⟩ := hshape
      exact ⟨p, gap, ['*'], gap', by simp, hgap, Or.inr rfl, hgap'⟩
  · rintro ⟨p, gap, star, gap', rfl, hgap, hstar, hgap'⟩
    have hline : (Margin.after p).next '\n' = .clear := rfl
    have hclear : gap.foldl Margin.next .clear = .clear := by
      rcases Margin.foldl_blank (show Margin.clear ≠ .taken by decide) hgap with h | h <;> exact h
    have hfold : Margin.after (p ++ '\n' :: (gap ++ (star ++ gap'))) = gap'.foldl Margin.next
        (star.foldl Margin.next .clear) := by
      rw [Margin.after, List.foldl_append, List.foldl_cons, List.foldl_append, List.foldl_append]
      exact congrArg (fun m => gap'.foldl Margin.next (star.foldl Margin.next m)) (by rw [← hclear]; rfl)
    have hne : star.foldl Margin.next .clear ≠ .taken := by
      rcases hstar with rfl | rfl <;> decide
    rw [hfold]
    rcases Margin.foldl_blank hne hgap' with h | h <;> rw [h]
    · exact hne
    · decide

/-! ## The first place -/

/-- A marker at the start of `t`, which follows `before` in a body, and what it leaves. -/
inductive MarkerAt : Head → (before t raw : Text) → Prop
  | tagged {before t rest : Text} : afterWord? t = some rest → MarkerAt .block before ('@' :: t) (Text.trimStart rest)
  | leading {before t rest : Text} : LeadsLine before → afterWord? t = some rest →
      MarkerAt .block before t (Text.trimStart rest)
  | ending {before t rest raw : Text} : afterWord? t = some rest → afterNewlineFrom? none rest = some raw →
      MarkerAt .docstring before t raw

/-- `raw` is what the first marker in a body leaves of it. -/
def FirstMarker (head : Head) (body raw : Text) : Prop :=
  ∃ before t, body = before ++ t ∧ MarkerAt head before t raw ∧
    ∀ p q other, body = p ++ q → p.length < before.length → ¬ MarkerAt head p q other

/-- The first place of `t`, which follows `before`, that `here?` decides. -/
def firstPlace? (here? : (before t : Text) → Option Text) (before : Text) : Text → Option Text
  | [] => none
  | c :: t =>
    match here? before (c :: t) with
    | some raw => some raw
    | none => firstPlace? here? (before ++ [c]) t

theorem firstPlace?_eq_some {here? : (before t : Text) → Option Text} : ∀ {before t raw : Text},
    firstPlace? here? before t = some raw → ∃ p q, t = p ++ q ∧ here? (before ++ p) q = some raw ∧
      ∀ p' q', t = p' ++ q' → p'.length < p.length → here? (before ++ p') q' = none
  | _, [], _, h => by cases h
  | before, c :: t, raw, h => by
    rw [firstPlace?] at h
    split at h
    · rename_i hhere
      obtain rfl := Option.some.inj h
      exact ⟨[], c :: t, rfl, by rwa [List.append_nil], fun p' q' _ hlt => absurd hlt (Nat.not_lt_zero _)⟩
    · rename_i hnone
      obtain ⟨p, q, rfl, hq, hfirst⟩ := firstPlace?_eq_some h
      refine ⟨c :: p, q, rfl, by rwa [List.append_cons], fun p' q' hpq hlt => ?_⟩
      cases p' with
      | nil =>
        rw [List.nil_append] at hpq
        rwa [List.append_nil, ← hpq]
      | cons x p' =>
        obtain ⟨rfl, htail⟩ := List.cons.inj hpq
        rw [List.append_cons]
        exact hfirst p' q' htail (Nat.lt_of_succ_lt_succ hlt)

theorem firstPlace?_eq_none {here? : (before t : Text) → Option Text} : ∀ {before t : Text},
    firstPlace? here? before t = none → ∀ p c q, t = p ++ c :: q → here? (before ++ p) (c :: q) = none
  | _, [], _, p, c, q, hpq => by simp at hpq
  | before, x :: t, h, p, c, q, hpq => by
    rw [firstPlace?] at h
    split at h
    · cases h
    · rename_i hnone
      cases p with
      | nil =>
        rw [List.nil_append] at hpq
        rwa [List.append_nil, ← hpq]
      | cons y p =>
        obtain ⟨rfl, htail⟩ := List.cons.inj hpq
        rw [List.append_cons]
        exact firstPlace?_eq_none h p c q htail

def blockAt? (before t : Text) : Option Text :=
  match if Margin.after before = .taken then none else afterWord? t with
  | some rest => some (Text.trimStart rest)
  | none =>
    match if t.head? = some '@' then afterWord? t.tail else none with
    | some rest => some (Text.trimStart rest)
    | none => none

theorem inBlockFrom?_eq_firstPlace? : ∀ (before t : Text),
    inBlockFrom? (Margin.after before) t = firstPlace? blockAt? before t
  | _, [] => rfl
  | before, c :: t => by
    rw [inBlockFrom?, firstPlace?, blockAt?, ← Margin.after_concat, inBlockFrom?_eq_firstPlace? (before ++ [c]) t]
    simp only [List.head?_cons, List.tail_cons, Option.some.injEq]
    cases (if Margin.after before = .taken then none else afterWord? (c :: t)) with
    | some rest => rfl
    | none => cases (if c = '@' then afterWord? t else none) <;> rfl

def docstringAt? (_before t : Text) : Option Text := (afterWord? t).bind (afterNewlineFrom? none)

theorem inDocstring?_eq_firstPlace? : ∀ (before t : Text), inDocstring? t = firstPlace? docstringAt? before t
  | _, [] => rfl
  | before, c :: t => by
    rw [inDocstring?, firstPlace?, ← inDocstring?_eq_firstPlace? (before ++ [c]) t]
    rfl

end Marker

namespace Head

open Marker

def markerAt? : Head → (before t : Text) → Option Text
  | block => blockAt?
  | docstring => docstringAt?

theorem inside?_eq_firstPlace? (head : Head) (body : Text) :
    head.inside? body = firstPlace? head.markerAt? [] body := by
  cases head with
  | block => exact inBlockFrom?_eq_firstPlace? [] body
  | docstring => exact inDocstring?_eq_firstPlace? [] body

theorem afterWord?_at (t : Text) : Marker.afterWord? ('@' :: t) = none := rfl

theorem markerAt?_eq_some_iff {head : Head} {before t raw : Text} :
    head.markerAt? before t = some raw ↔ MarkerAt head before t raw := by
  cases head with
  | block =>
    show blockAt? before t = some raw ↔ _
    constructor
    · intro h
      unfold blockAt? at h
      split at h
      · rename_i rest hword
        obtain rfl := Option.some.inj h
        split at hword
        · cases hword
        · rename_i hmargin
          exact .leading ((Margin.after_ne_taken_iff before).1 hmargin) hword
      · split at h
        · rename_i rest hword
          obtain rfl := Option.some.inj h
          split at hword
          · rename_i hat
            obtain ⟨t, rfl⟩ := List.head?_eq_some_iff.1 hat
            exact .tagged hword
          · cases hword
        · cases h
    · intro h
      cases h with
      | @tagged _ t rest hword =>
        have hnone : (if Margin.after before = .taken then none else afterWord? ('@' :: t)) = none := by
          rw [afterWord?_at, ite_self]
        rw [blockAt?, hnone]
        simp [hword]
      | @leading _ _ rest hline hword =>
        rw [blockAt?, if_neg ((Margin.after_ne_taken_iff before).2 hline), hword]
  | docstring =>
    show docstringAt? before t = some raw ↔ _
    rw [docstringAt?, Option.bind_eq_some_iff]
    constructor
    · rintro ⟨rest, hword, hraw⟩
      exact .ending hword hraw
    · intro h
      cases h with
      | ending hword hraw => exact ⟨_, hword, hraw⟩

theorem markerAt?_eq_none_iff {head : Head} {before t : Text} :
    head.markerAt? before t = none ↔ ∀ raw, ¬ MarkerAt head before t raw := by
  rw [Option.eq_none_iff_forall_ne_some]
  exact forall_congr' fun raw => not_congr markerAt?_eq_some_iff

theorem not_markerAt_nil {head : Head} {before raw : Text} : ¬ MarkerAt head before [] raw := by
  rw [← markerAt?_eq_some_iff]
  cases head with
  | block =>
    show blockAt? before [] ≠ some raw
    unfold blockAt?
    cases Margin.after before <;> exact fun h => by cases h
  | docstring => exact fun h => by cases h

/-- **A body is left behind its first marker.** -/
theorem inside?_eq_some_iff {head : Head} {body raw : Text} :
    head.inside? body = some raw ↔ FirstMarker head body raw := by
  rw [inside?_eq_firstPlace?]
  constructor
  · intro h
    obtain ⟨p, q, hpq, hq, hfirst⟩ := firstPlace?_eq_some h
    refine ⟨p, q, hpq, markerAt?_eq_some_iff.1 hq, fun p' q' other hpq' hlt => ?_⟩
    exact markerAt?_eq_none_iff.1 (hfirst p' q' hpq' hlt) other
  · rintro ⟨before, t, hbody, hat, hfirst⟩
    cases hf : firstPlace? head.markerAt? [] body with
    | none =>
      cases t with
      | nil => exact absurd hat not_markerAt_nil
      | cons c t =>
        exact absurd hat (markerAt?_eq_none_iff.1 (firstPlace?_eq_none hf before c t hbody) raw)
    | some raw' =>
      obtain ⟨p, q, hpq, hq, hfirst'⟩ := firstPlace?_eq_some hf
      have hle : before.length ≤ p.length :=
        Nat.le_of_not_lt fun hlt => hfirst p q raw' hpq hlt (markerAt?_eq_some_iff.1 hq)
      have hge : p.length ≤ before.length :=
        Nat.le_of_not_lt fun hlt => markerAt?_eq_none_iff.1 (hfirst' before t hbody hlt) raw hat
      obtain ⟨rfl, rfl⟩ := List.append_inj (hpq.symm.trans hbody) (Nat.le_antisymm hge hle)
      rw [← hq]
      exact markerAt?_eq_some_iff.2 hat

theorem inside?_eq_none_iff {head : Head} {body : Text} :
    head.inside? body = none ↔ ∀ p q raw, body = p ++ q → ¬ MarkerAt head p q raw := by
  rw [inside?_eq_firstPlace?]
  constructor
  · intro h p q raw hpq hat
    cases q with
    | nil => exact not_markerAt_nil hat
    | cons c q => exact markerAt?_eq_none_iff.1 (firstPlace?_eq_none h p c q hpq) raw hat
  · intro h
    cases hf : firstPlace? head.markerAt? [] body with
    | none => rfl
    | some raw =>
      obtain ⟨p, q, hpq, hq, -⟩ := firstPlace?_eq_some hf
      exact absurd (markerAt?_eq_some_iff.1 hq) (h p q raw hpq)

end Head

end Marginalia
