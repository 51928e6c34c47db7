import Marginalia.Proofs.Text.Fold
/-!
# Regular expressions

A regular expression has many ways to match and an order of preference among them: an alternative goes before the one
behind it, and a repetition goes on before it stops.  `Regex.ends` lists what all the matches at the start of a text
leave of it, the preferred match first.  A search finds the leftmost match, that is the preferred one at the first place
that has any (`search?`), and `captures` goes on behind each match.

So a part of an expression does not decide by itself how much it takes: where the rest of the expression fails behind
its preferred match, the next one is tried (`first?`).  But a repetition takes all that it can, and an optional character
is taken where it stands, if giving a character back never helps the rest (`first?_many`, `first?_optional`).

Where only the presence of a match matters, the order does not: an expression without anchors matches the beginnings of a
text that are in its language (`mem_ends_iff`), and an expression behind the start of the text is looked for there alone
(`search?_start`).
-/
namespace Marginalia

/-- Regular expressions without captured groups. -/
inductive Regex
  /-- The start of the text that is searched. -/
  | start
  /-- Its end. -/
  | finish
  | nothing
  | one (accepts : Char → Bool)
  | seq (first second : Regex)
  | either (first second : Regex)
  /-- Any number of times, and as often as possible. -/
  | many (inner : Regex)

namespace Regex

def char (c : Char) : Regex := one (· == c)

/-- Preferably there. -/
def optional (r : Regex) : Regex := either r nothing

def atLeastOnce (r : Regex) : Regex := seq r (many r)

def literal (s : Text) : Regex := s.foldr (fun c r => seq (char c) r) nothing

def inAnyCase (word : Text) : Regex := word.foldr (fun w r => seq (one fun c => foldCase c == foldCase w) r) nothing

/-- A word in any case, by the whole of simple case folding. -/
def spelling (word : Text) : Regex := word.foldr (fun w r => seq (one fun c => decide (SameLetter c w)) r) nothing

/-- Preferably an earlier one. -/
def anyOf (rs : List Regex) : Regex := rs.foldr either (one fun _ => false)

/-! ## Matches by preference -/

/-- What is left after any number of steps, more steps first.  A step that takes nothing is not repeated. -/
def repeats (step : Text → List Text) (t : Text) : List Text :=
  (step t).flatMap (fun rest => if rest.length < t.length then repeats step rest else [rest]) ++ [t]
termination_by t.length

/-- What the matches at the start of a text leave of it, the preferred match first.  The text is an end of `whole`. -/
def ends (whole : Text) : Regex → Text → List Text
  | start, t => if t = whole then [t] else []
  | finish, t => if t = [] then [t] else []
  | nothing, t => [t]
  | one accepts, c :: t => if accepts c then [t] else []
  | one _, [] => []
  | seq a b, t => (ends whole a t).flatMap (ends whole b)
  | either a b, t => ends whole a t ++ ends whole b t
  | many a, t => repeats (ends whole a) t

section Ends

variable (whole t : Text) (accepts : Char → Bool) (a b : Regex)

theorem ends_start : start.ends whole t = if t = whole then [t] else [] := rfl

theorem ends_finish : finish.ends whole t = if t = [] then [t] else [] := rfl

theorem ends_nothing : nothing.ends whole t = [t] := rfl

theorem ends_one_nil : (one accepts).ends whole [] = [] := rfl

theorem ends_one_cons (c : Char) : (one accepts).ends whole (c :: t) = if accepts c then [t] else [] := rfl

theorem ends_seq : (seq a b).ends whole t = (a.ends whole t).flatMap (b.ends whole) := rfl

theorem ends_either : (either a b).ends whole t = a.ends whole t ++ b.ends whole t := rfl

theorem ends_many : (many a).ends whole t = repeats (a.ends whole) t := rfl

end Ends

/-- What the leftmost match in the text leaves behind it.  The text is an end of `whole`. -/
def searchFrom? (r : Regex) (whole : Text) : Text → Option Text
  | [] => (r.ends whole []).head?
  | c :: t =>
    match (r.ends whole (c :: t)).head? with
    | some rest => some rest
    | none => searchFrom? r whole t

def search? (r : Regex) (t : Text) : Option Text := searchFrom? r t t

/-- A match with a captured group at its end. -/
structure Capture where
  before : Text
  whole : Text
  group : Text

/-- The matches of `first` with `group` behind it: what is left behind the first, and behind both. -/
def splits (first group : Regex) (whole t : Text) : List (Text × Text) :=
  (first.ends whole t).flatMap fun inner => (group.ends whole inner).map (inner, ·)

/-- The matches of `first` with a captured `group` behind it, from left to right, each search going on behind the match
before it.  A match that takes nothing is passed over. -/
def captures (first group : Regex) (whole before : Text) : Text → List Capture
  | [] => []
  | c :: t =>
    match (splits first group whole (c :: t)).head? with
    | some (inner, rest) =>
      if rest.length < t.length + 1 then
        let taken := (c :: t).take (t.length + 1 - rest.length)
        ⟨before, taken, inner.take (inner.length - rest.length)⟩ :: captures first group whole (before ++ taken) rest
      else captures first group whole (before ++ [c]) t
    | none => captures first group whole (before ++ [c]) t
termination_by t => t.length

/-! ## The preferred match with something behind it -/

section First

variable {β : Type} {whole : Text} {k : Text → Option β}

/-- What `k` finds behind the preferred one of those matches behind which it finds something. -/
def first? (r : Regex) (whole : Text) (k : Text → Option β) (t : Text) : Option β := (r.ends whole t).findSome? k

theorem map_head?_ends (f : Text → β) (r : Regex) (whole t : Text) :
    (r.ends whole t).head?.map f = r.first? whole (fun rest => some (f rest)) t := by
  rw [first?]
  cases r.ends whole t <;> rfl

theorem head?_ends (r : Regex) (whole t : Text) : (r.ends whole t).head? = r.first? whole some t := by
  have := map_head?_ends id r whole t
  rwa [Option.map_id_apply] at this

theorem searchFrom?_nil (r : Regex) (whole : Text) : r.searchFrom? whole [] = r.first? whole some [] := head?_ends r whole []

theorem searchFrom?_cons (r : Regex) (whole : Text) (c : Char) (t : Text) :
    r.searchFrom? whole (c :: t) = (r.first? whole some (c :: t)).or (r.searchFrom? whole t) := by
  rw [searchFrom?, head?_ends]
  cases r.first? whole some (c :: t) <;> rfl

theorem findSome?_flatMap {α γ : Type} (f : α → List γ) (k : γ → Option β) : ∀ items : List α,
    (items.flatMap f).findSome? k = items.findSome? fun a => (f a).findSome? k
  | [] => rfl
  | a :: items => by
    rw [List.flatMap_cons, List.findSome?_append, findSome?_flatMap f k items, List.findSome?_cons]
    cases (f a).findSome? k <;> rfl

theorem first?_seq (a b : Regex) (t : Text) : (seq a b).first? whole k t = a.first? whole (b.first? whole k) t := by
  rw [first?, ends_seq, findSome?_flatMap]
  rfl

theorem first?_either (a b : Regex) (t : Text) :
    (either a b).first? whole k t = (a.first? whole k t).or (b.first? whole k t) := by
  rw [first?, first?, first?, ends_either, List.findSome?_append]

theorem first?_char (c : Char) (t : Text) :
    (char c).first? whole k t = if t.head? = some c then k t.tail else none := by
  cases t with
  | nil => rfl
  | cons x t => by_cases hx : x = c <;> simp [first?, char, ends_one_cons, hx]

theorem first?_literal : ∀ (s t : Text), (literal s).first? whole k t = if s.isPrefixOf t then k (t.drop s.length) else none
  | [], t => by simp [literal, first?, ends_nothing]
  | c :: s, t => by
    have hcons : literal (c :: s) = seq (char c) (literal s) := rfl
    rw [hcons, first?_seq, first?_char]
    cases t with
    | nil => simp
    | cons x t =>
      rw [List.tail_cons, first?_literal s t]
      by_cases hx : x = c
      · simp [hx]
      · have hx' : ¬ c = x := fun h => hx h.symm
        simp [hx, hx']

theorem first?_inAnyCase : ∀ (word t : Text), (inAnyCase word).first? whole k t = (Text.afterWord? word t).bind k
  | [], t => by simp [inAnyCase, first?, ends_nothing, Text.afterWord?]
  | w :: word, t => by
    have hcons : inAnyCase (w :: word) = seq (one fun c => foldCase c == foldCase w) (inAnyCase word) := rfl
    rw [hcons, first?_seq]
    cases t with
    | nil => rfl
    | cons c t =>
      rw [first?, ends_one_cons, Text.afterWord?]
      split
      · rw [List.findSome?_singleton, first?_inAnyCase word t]
      · rfl

/-- The text without the character, if it begins with it. -/
def dropChar (c : Char) (t : Text) : Text := if t.head? = some c then t.tail else t

theorem dropChar_cons {c x : Char} (hx : x ≠ c) (t : Text) : dropChar c (x :: t) = x :: t := if_neg (by simpa using hx)

/-- A character that may stand at the start of a text, and is dropped if it does. -/
theorem exists_dropChar (c : Char) (t : Text) :
    ∃ sign : Text, t = sign ++ dropChar c t ∧ (sign = [] ∧ t.head? ≠ some c ∨ sign = [c]) := by
  by_cases h : t.head? = some c
  · obtain ⟨u, rfl⟩ := List.head?_eq_some_iff.1 h
    exact ⟨[c], by rw [dropChar, if_pos h]; rfl, Or.inr rfl⟩
  · exact ⟨[], by rw [dropChar, if_neg h]; rfl, Or.inl ⟨rfl, h⟩⟩

theorem dropChar_append {c : Char} {sign t : Text} (h : sign = [] ∧ t.head? ≠ some c ∨ sign = [c]) :
    dropChar c (sign ++ t) = t := by
  rcases h with ⟨rfl, h⟩ | rfl
  · exact if_neg h
  · exact if_pos rfl

/-- **An optional character is taken where it stands.** -/
theorem first?_optional {c : Char} (h : ∀ rest, k rest = none → k (c :: rest) = none) (t : Text) :
    (optional (char c)).first? whole k t = k (dropChar c t) := by
  rw [optional, first?_either, first?_char, dropChar]
  have hnothing : nothing.first? whole k t = k t := by simp [first?, ends_nothing]
  rw [hnothing]
  cases t with
  | nil => rfl
  | cons x t =>
    by_cases hx : x = c
    · subst hx
      have hback := h t
      simp only [List.head?_cons, if_true, List.tail_cons]
      cases hk : k t with
      | none => rw [hback hk, Option.or_none]
      | some found => rfl
    · simp [hx]

theorem first?_repeats {step : Text → List Text} {t : Text} (h : (repeats step t).findSome? k = none) : k t = none := by
  rw [repeats, List.findSome?_append, List.findSome?_singleton, Option.or_eq_none_iff] at h
  exact h.2

theorem repeats_one (accepts : Char → Bool) (c : Char) (t : Text) : repeats (ends whole (one accepts)) (c :: t) =
    (if accepts c then repeats (ends whole (one accepts)) t else []) ++ [c :: t] := by
  rw [repeats, ends_one_cons]
  cases accepts c <;> simp

theorem first?_many_cons (accepts : Char → Bool) (c : Char) (t : Text) : (many (one accepts)).first? whole k (c :: t) =
    (if accepts c then (many (one accepts)).first? whole k t else none).or (k (c :: t)) := by
  rw [first?, ends_many, repeats_one, List.findSome?_append, List.findSome?_singleton]
  cases accepts c <;> rfl

/-- **A repetition takes all that it can.** -/
theorem first?_many {accepts : Char → Bool} (h : ∀ c rest, accepts c = true → k rest = none → k (c :: rest) = none) :
    ∀ t : Text, (many (one accepts)).first? whole k t = k (t.dropWhile accepts)
  | [] => by simp [first?, ends_many, ends_one_nil, repeats]
  | c :: t => by
    have ih := first?_many h t
    rw [first?_many_cons, List.dropWhile_cons]
    cases hc : accepts c with
    | false => rfl
    | true =>
      simp only [if_true]
      cases hk : k (t.dropWhile accepts) with
      | some found => rw [ih, hk, Option.some_or]
      | none => rw [ih, hk, Option.none_or, h c t hc (first?_repeats (ih.trans hk))]

theorem first?_start (t : Text) : start.first? whole k t = if t = whole then k t else none := by
  rw [first?, ends_start]
  split
  · exact List.findSome?_singleton
  · rfl

theorem first?_finish (t : Text) : finish.first? whole k t = if t = [] then k t else none := by
  rw [first?, ends_finish]
  split
  · exact List.findSome?_singleton
  · rfl

theorem head?_repeats (step : Text → List Text) (t : Text) : (repeats step t).head? =
    match (step t).head? with
    | some rest => if rest.length < t.length then (repeats step rest).head? else some rest
    | none => some t := by
  have hsome : ∀ rest, (repeats step rest).head? ≠ none := fun rest => by
    rw [repeats]
    simp
  rw [repeats, List.head?_append, List.head?_flatMap]
  cases step t with
  | nil => rfl
  | cons rest others =>
    rw [List.findSome?_cons]
    by_cases hlt : rest.length < t.length
    · cases hrest : (repeats step rest).head? with
      | none => exact absurd hrest (hsome rest)
      | some found => simp only [List.head?_cons, if_pos hlt, hrest, Option.some_or]
    · simp only [List.head?_cons, if_neg hlt, Option.some_or]

theorem head?_splits (first group : Regex) (t : Text) : (splits first group whole t).head? =
    first.first? whole (fun inner => group.first? whole (fun rest => some (inner, rest)) inner) t := by
  rw [splits, List.head?_flatMap, first?]
  congr 1
  funext inner
  rw [List.head?_map, map_head?_ends]

end First

/-! ## The language of an expression -/

/-- The texts that an expression matches from end to end.  There is none for an anchor. -/
inductive Matches : Regex → Text → Prop
  | nothing : Matches nothing []
  | one {accepts : Char → Bool} {c : Char} : accepts c = true → Matches (one accepts) [c]
  | seq {a b : Regex} {s t : Text} : Matches a s → Matches b t → Matches (seq a b) (s ++ t)
  | first {a b : Regex} {s : Text} : Matches a s → Matches (either a b) s
  | second {a b : Regex} {s : Text} : Matches b s → Matches (either a b) s
  | stop {a : Regex} : Matches (many a) []
  | more {a : Regex} {s t : Text} : Matches a s → Matches (many a) t → Matches (many a) (s ++ t)

/-- Whether no anchor occurs. -/
def floats : Regex → Bool
  | start | finish => false
  | nothing | one _ => true
  | seq a b | either a b => a.floats && b.floats
  | many a => a.floats

section Language

variable {a b : Regex} {s t rest whole : Text}

theorem matches_nothing : nothing.Matches s ↔ s = [] := by
  constructor
  · rintro ⟨⟩
    rfl
  · rintro rfl
    exact .nothing

theorem matches_one {accepts : Char → Bool} : (one accepts).Matches s ↔ ∃ c, s = [c] ∧ accepts c = true := by
  constructor
  · intro h
    cases h with
    | one hc => exact ⟨_, rfl, hc⟩
  · rintro ⟨c, rfl, hc⟩
    exact .one hc

theorem matches_seq : (seq a b).Matches s ↔ ∃ u v : Text, s = u ++ v ∧ a.Matches u ∧ b.Matches v := by
  constructor
  · intro h
    cases h with
    | seq hu hv => exact ⟨_, _, rfl, hu, hv⟩
  · rintro ⟨u, v, rfl, hu, hv⟩
    exact .seq hu hv

theorem matches_either : (either a b).Matches s ↔ a.Matches s ∨ b.Matches s := by
  constructor
  · intro h
    cases h with
    | first h => exact Or.inl h
    | second h => exact Or.inr h
  · rintro (h | h)
    · exact .first h
    · exact .second h

theorem matches_char {c : Char} : (char c).Matches s ↔ s = [c] := by simp [char, matches_one]

theorem matches_optional : (optional a).Matches s ↔ a.Matches s ∨ s = [] := by
  rw [optional, matches_either, matches_nothing]

theorem matches_anyOf : ∀ {rs : List Regex}, (anyOf rs).Matches s ↔ ∃ r ∈ rs, r.Matches s
  | [] => by simp [anyOf, matches_one]
  | r :: rs => by
    have hcons : anyOf (r :: rs) = either r (anyOf rs) := rfl
    rw [hcons, matches_either, matches_anyOf]
    simp only [List.mem_cons, exists_eq_or_imp]

theorem matches_spelling : ∀ {word s : Text}, (spelling word).Matches s ↔ s.Spells word
  | [], s => by simp [spelling, matches_nothing, Text.Spells]
  | x :: word, s => by
    have hcons : spelling (x :: word) = seq (one fun c => decide (SameLetter c x)) (spelling word) := rfl
    rw [hcons, matches_seq, Text.Spells, List.forall₂_cons_right_iff]
    constructor
    · rintro ⟨u, v, rfl, hu, hv⟩
      obtain ⟨c, rfl, hc⟩ := matches_one.1 hu
      exact ⟨c, v, of_decide_eq_true hc, matches_spelling.1 hv, rfl⟩
    · rintro ⟨c, v, hc, hv, rfl⟩
      exact ⟨[c], v, rfl, matches_one.2 ⟨c, rfl, decide_eq_true hc⟩, matches_spelling.2 hv⟩

theorem matches_seq_spelling {u v : Text} : (seq (spelling u) (spelling v)).Matches s ↔ s.Spells (u ++ v) := by
  simp only [matches_seq, matches_spelling, Text.spells_append]

/-- What ends with something optional matches with it or without. -/
theorem matches_seq_optional : (seq a (optional b)).Matches s ↔ a.Matches s ∨ (seq a b).Matches s := by
  simp only [matches_seq, matches_optional]
  constructor
  · rintro ⟨u, v, rfl, hu, hv | rfl⟩
    · exact Or.inr ⟨u, v, rfl, hu, hv⟩
    · exact Or.inl ((List.append_nil u).symm ▸ hu)
  · rintro (hs | ⟨u, v, rfl, hu, hv⟩)
    · exact ⟨s, [], (List.append_nil s).symm, hs, Or.inr rfl⟩
    · exact ⟨u, v, rfl, hu, Or.inl hv⟩

/-- A property of the repetitions of an expression: induction on how often. -/
theorem Matches.induction_many {P : Text → Prop} (hstop : P [])
    (hmore : ∀ {u v : Text}, a.Matches u → P v → P (u ++ v)) (h : (many a).Matches s) : P s := by
  generalize hr : many a = r at h
  induction h with
  | stop => exact hstop
  | more hu _ _ ih =>
    obtain rfl := Regex.many.inj hr
    exact hmore hu (ih rfl)
  | _ => cases hr

theorem matches_many_one {accepts : Char → Bool} {s : Text} :
    (many (one accepts)).Matches s ↔ ∀ c ∈ s, accepts c = true := by
  constructor
  · refine Matches.induction_many (P := fun s => ∀ c ∈ s, accepts c = true) (by simp) fun hu hv => ?_
    obtain ⟨c, rfl, hc⟩ := matches_one.1 hu
    exact List.forall_mem_cons.2 ⟨hc, hv⟩
  · intro h
    induction s with
    | nil => exact .stop
    | cons c s ih =>
      obtain ⟨hc, hs⟩ := List.forall_mem_cons.1 h
      exact .more (.one hc) (ih hs)

theorem matches_atLeastOnce {accepts : Char → Bool} :
    (atLeastOnce (one accepts)).Matches s ↔ s ≠ [] ∧ ∀ c ∈ s, accepts c = true := by
  rw [atLeastOnce, matches_seq]
  constructor
  · rintro ⟨u, v, rfl, hu, hv⟩
    obtain ⟨c, rfl, hc⟩ := matches_one.1 hu
    exact ⟨List.cons_ne_nil c v, List.forall_mem_cons.2 ⟨hc, matches_many_one.1 hv⟩⟩
  · rintro ⟨hne, hs⟩
    obtain ⟨c, v, rfl⟩ := List.exists_cons_of_ne_nil hne
    obtain ⟨hc, hv⟩ := List.forall_mem_cons.1 hs
    exact ⟨[c], v, rfl, .one hc, matches_many_one.2 hv⟩

theorem mem_repeats {step : Text → List Text} : rest ∈ repeats step t ↔
    (∃ mid ∈ step t, if mid.length < t.length then rest ∈ repeats step mid else rest = mid) ∨ rest = t := by
  rw [repeats, List.mem_append, List.mem_flatMap, List.mem_singleton]
  refine or_congr_left (exists_congr fun mid => and_congr_right' ?_)
  split
  · rfl
  · exact List.mem_singleton

/-- What a repetition takes is matched by it. -/
theorem matches_of_mem_repeats {t : Text} (ha : ∀ {t rest}, rest ∈ a.ends whole t → ∃ s : Text, t = s ++ rest ∧ a.Matches s)
    (h : rest ∈ repeats (a.ends whole) t) : ∃ s : Text, t = s ++ rest ∧ (many a).Matches s := by
  rcases mem_repeats.1 h with ⟨mid, hmid, hrest⟩ | rfl
  · obtain ⟨s, rfl, hs⟩ := ha hmid
    split at hrest
    · obtain ⟨u, rfl, hu⟩ := matches_of_mem_repeats ha hrest
      exact ⟨s ++ u, (List.append_assoc _ _ _).symm, hs.more hu⟩
    · subst hrest
      exact ⟨s, rfl, by simpa using hs.more .stop⟩
  · exact ⟨[], rfl, .stop⟩
termination_by t.length

/-- What a repetition matches is taken by it, the times apart that take nothing. -/
theorem mem_repeats_of_matches (ha : ∀ {s rest}, a.Matches s → rest ∈ a.ends whole (s ++ rest)) (h : (many a).Matches s) :
    rest ∈ repeats (a.ends whole) (s ++ rest) := by
  refine h.induction_many (P := fun s => rest ∈ repeats (a.ends whole) (s ++ rest)) (mem_repeats.2 (Or.inr rfl))
    fun {u v} hu hv => ?_
  cases u with
  | nil => exact hv
  | cons c u =>
    rw [List.append_assoc]
    refine mem_repeats.2 (Or.inl ⟨v ++ rest, ha hu, ?_⟩)
    rw [if_pos (by simp only [List.cons_append, List.length_cons, List.length_append]; omega)]
    exact hv

/-- **An expression matches the beginnings of a text that are in its language.** -/
theorem mem_ends_iff : ∀ {r : Regex} {t rest : Text}, r.floats = true →
    (rest ∈ r.ends whole t ↔ ∃ s : Text, t = s ++ rest ∧ r.Matches s)
  | .nothing, t, rest, _ => by
    simp [ends_nothing, matches_nothing, eq_comm]
  | .one accepts, t, rest, _ => by
    simp only [matches_one]
    constructor
    · intro h
      cases t with
      | nil => cases h
      | cons c t =>
        rw [ends_one_cons] at h
        split at h
        · rename_i hc
          obtain rfl := List.mem_singleton.1 h
          exact ⟨[c], rfl, c, rfl, hc⟩
        · cases h
    · rintro ⟨_, rfl, c, rfl, hc⟩
      rw [List.singleton_append, ends_one_cons, if_pos hc]
      exact List.mem_singleton_self rest
  | .seq a b, t, rest, h => by
    obtain ⟨ha, hb⟩ := Bool.and_eq_true_iff.1 h
    rw [ends_seq, List.mem_flatMap]
    simp only [matches_seq]
    constructor
    · rintro ⟨mid, hmid, hrest⟩
      obtain ⟨u, rfl, hu⟩ := (mem_ends_iff ha).1 hmid
      obtain ⟨v, rfl, hv⟩ := (mem_ends_iff hb).1 hrest
      exact ⟨u ++ v, (List.append_assoc _ _ _).symm, u, v, rfl, hu, hv⟩
    · rintro ⟨_, rfl, u, v, rfl, hu, hv⟩
      rw [List.append_assoc]
      exact ⟨_, (mem_ends_iff ha).2 ⟨u, rfl, hu⟩, (mem_ends_iff hb).2 ⟨v, rfl, hv⟩⟩
  | .either a b, t, rest, h => by
    obtain ⟨ha, hb⟩ := Bool.and_eq_true_iff.1 h
    rw [ends_either, List.mem_append, mem_ends_iff ha, mem_ends_iff hb]
    simp only [matches_either, and_or_left, exists_or]
  | .many a, t, rest, h => by
    have ha : a.floats = true := h
    rw [ends_many]
    constructor
    · exact matches_of_mem_repeats (mem_ends_iff ha).1
    · rintro ⟨s, rfl, hs⟩
      exact mem_repeats_of_matches (fun hs => (mem_ends_iff ha).2 ⟨_, rfl, hs⟩) hs

theorem searchFrom?_start {r : Regex} {whole : Text} : ∀ {t : Text}, t.length < whole.length →
    (seq start r).searchFrom? whole t = none
  | [], h => by
    rw [searchFrom?_nil, first?_seq, first?_start, if_neg]
    rintro rfl
    exact absurd h (Nat.lt_irrefl _)
  | c :: t, h => by
    rw [searchFrom?_cons, first?_seq, first?_start, if_neg]
    · exact searchFrom?_start (Nat.lt_of_succ_lt h)
    · rintro rfl
      exact absurd h (Nat.lt_irrefl _)

/-- **Behind the start of the text an expression is looked for there alone.** -/
theorem search?_start (r : Regex) (t : Text) : (seq start r).search? t = (r.ends t t).head? := by
  cases t with
  | nil => rw [search?, searchFrom?_nil, first?_seq, first?_start, if_pos rfl, head?_ends]
  | cons c t =>
    rw [search?, searchFrom?_cons, first?_seq, first?_start, if_pos rfl, searchFrom?_start (Nat.lt_succ_self _),
      Option.or_none, head?_ends]

theorem search?_start_isSome {r : Regex} (h : r.floats = true) :
    ((seq start r).search? t).isSome = true ↔ ∃ s rest : Text, t = s ++ rest ∧ r.Matches s := by
  have hsome : r.ends t t ≠ [] ↔ ∃ rest, rest ∈ r.ends t t :=
    ⟨List.exists_mem_of_ne_nil _, fun ⟨_, hrest⟩ => List.ne_nil_of_mem hrest⟩
  rw [search?_start, List.isSome_head?, hsome, exists_comm]
  exact exists_congr fun rest => mem_ends_iff h

end Language

end Regex

end Marginalia
