import Marginalia.Proofs.Text.Fold
import Marginalia.Text.Blank
/-!
# White space at the ends of a text

Trimming the end of a text leaves what stands before it alone (`trimEnd_append`), and no letter is white space, in
either case (`toLower_of_isBlank`).
-/
namespace Marginalia

theorem toLower_of_isBlank {c : Char} (h : isBlank c = true) : c.toLower = c := by
  unfold isBlank at h
  simp only [Bool.or_eq_true, Bool.and_eq_true, decide_eq_true_eq, beq_iff_eq] at h
  refine toLower_of_not_capital fun hcapital => ?_
  have := isCapital_iff.1 hcapital
  omega

theorem foldCase_of_isBlank {c : Char} (h : isBlank c = true) : foldCase c = c := by
  have hs : c ≠ '\u017F' := by
    rintro rfl
    revert h
    decide
  have hk : c ≠ '\u212A' := by
    rintro rfl
    revert h
    decide
  rw [foldCase, if_neg hs, if_neg hk, toLower_of_isBlank h]

theorem isBlank_foldCase (c : Char) : isBlank (foldCase c) = isBlank c := by
  by_cases h : isBlank c = true
  · rw [foldCase_of_isBlank h]
  unfold foldCase
  split
  · rename_i hs
    subst hs
    rfl
  · split
    · rename_i hk
      subst hk
      rfl
    · by_cases hcapital : IsCapital c
      · have hlower := toNat_toLower_of_capital hcapital
        have hbounds := isCapital_iff.1 hcapital
        rw [Bool.not_eq_true] at h
        rw [h]
        simp only [isBlank, hlower, Bool.or_eq_false_iff, Bool.and_eq_false_iff, decide_eq_false_iff_not,
          beq_eq_false_iff_ne]
        omega
      · rw [toLower_of_not_capital hcapital]

/-- A letter is white space in every case or in none. -/
theorem SameLetter.isBlank_eq {c x : Char} (h : SameLetter c x) (hx : IsPlain x) : isBlank c = isBlank x := by
  rw [← isBlank_foldCase c, (foldCase_eq_iff hx).2 h, isBlank_foldCase]

theorem ne_of_isBlank {c x : Char} (hc : isBlank c = true) (hx : isBlank x = false) : c ≠ x := by
  rintro rfl
  rw [hx] at hc
  cases hc

namespace Text

theorem not_mem_of_isBlank {mark : Text} (hmark : ∀ m ∈ mark, isBlank m = false) {c : Char} (hc : isBlank c = true) :
    c ∉ mark := fun hm => ne_of_isBlank hc (hmark c hm) rfl

/-- What `decide` can settle of a mark. -/
theorem isBlank_eq_false_of_all {mark : Text} (h : mark.all (fun m => !isBlank m) = true) : ∀ m ∈ mark, isBlank m = false := by
  simpa using h

theorem trimEnd_append (s t : Text) :
    trimEnd (s ++ t) = if (trimEnd t).isEmpty then trimEnd s else s ++ trimEnd t := by
  induction s with
  | nil =>
    rw [List.nil_append]
    cases trimEnd t <;> rfl
  | cons c s ih =>
    rw [List.cons_append, trimEnd_cons, ih, trimEnd_cons]
    split
    · rfl
    · rename_i h
      cases ht : trimEnd t with
      | nil => simp [ht] at h
      | cons x rest => simp

theorem trimEnd_eq_nil {t : Text} (h : ∀ c ∈ t, isBlank c) : trimEnd t = [] := by
  induction t with
  | nil => rfl
  | cons c t ih =>
    rw [trimEnd_cons, ih fun x hx => h x (List.mem_cons_of_mem _ hx), h c List.mem_cons_self]
    rfl

theorem trimEnd_concat {c : Char} (hc : isBlank c = true) (t : Text) : trimEnd (t ++ [c]) = trimEnd t := by
  rw [trimEnd_append, trimEnd_eq_nil (by simpa using hc)]
  rfl

theorem trimEnd_eq_self {t : Text} (h : t.getLast?.any isBlank = false) : trimEnd t = t := by
  by_cases hne : t = []
  · rw [hne]
    rfl
  · have hlast : isBlank (t.getLast hne) = false := by
      rwa [List.getLast?_eq_some_getLast hne, Option.any_some] at h
    rw [← List.dropLast_concat_getLast hne, trimEnd_append]
    simp [trimEnd, hlast]

theorem exists_trimEnd (t : Text) : ∃ gap, (∀ c ∈ gap, isBlank c) ∧ t = trimEnd t ++ gap := by
  induction t with
  | nil => exact ⟨[], by simp, rfl⟩
  | cons c t ih =>
    obtain ⟨gap, hgap, ht⟩ := ih
    rw [trimEnd_cons]
    split
    · rename_i h
      rw [Bool.and_eq_true, List.isEmpty_iff] at h
      refine ⟨c :: t, fun x hx => ?_, rfl⟩
      rcases List.mem_cons.1 hx with rfl | hx
      · exact h.2
      · rw [ht, h.1] at hx
        exact hgap x hx
    · exact ⟨gap, hgap, by rw [List.cons_append, ← ht]⟩

theorem exists_trimStart (t : Text) : ∃ gap, (∀ c ∈ gap, isBlank c) ∧ t = gap ++ trimStart t :=
  ⟨t.takeWhile isBlank, List.all_eq_true.1 List.all_takeWhile, List.takeWhile_append_dropWhile.symm⟩

theorem not_mem_trimStart {c : Char} {t : Text} (h : c ∉ t) : c ∉ trimStart t :=
  fun hmem => h ((List.dropWhile_suffix _).subset hmem)

theorem not_mem_trimEnd {c : Char} {t : Text} (h : c ∉ t) : c ∉ trimEnd t := by
  obtain ⟨gap, -, ht⟩ := exists_trimEnd t
  exact fun hmem => h (by rw [ht]; exact List.mem_append_left gap hmem)

theorem not_mem_trim {c : Char} {t : Text} (h : c ∉ t) : c ∉ trim t := not_mem_trimEnd (not_mem_trimStart h)

theorem trimStart_append_eq (s t : Text) :
    trimStart (s ++ t) = if (trimStart s).isEmpty then trimStart t else trimStart s ++ t := List.dropWhile_append

theorem trimEnd_eq_self_iff {t : Text} : trimEnd t = t ↔ t.getLast?.any isBlank = false := by
  refine ⟨fun h => ?_, trimEnd_eq_self⟩
  rcases List.eq_nil_or_concat t with rfl | ⟨init, c, rfl⟩
  · rfl
  · rw [List.concat_eq_append] at h ⊢
    rw [List.getLast?_concat, Option.any_some]
    refine Bool.eq_false_iff.2 fun hc => ?_
    rw [trimEnd_concat hc] at h
    have hlen := congrArg List.length h
    obtain ⟨gap, -, hinit⟩ := exists_trimEnd init
    have hle := congrArg List.length hinit
    simp only [List.length_append, List.length_singleton] at hlen hle
    omega

/-- Where no white space ends a text, none ends an end of it. -/
theorem trimEnd_eq_self_of_suffix {s t : Text} (ht : trimEnd t = t) (hs : s <:+ t) : trimEnd s = s := by
  obtain ⟨p, rfl⟩ := hs
  rw [trimEnd_eq_self_iff] at ht ⊢
  cases s with
  | nil => rfl
  | cons c s => rwa [List.getLast?_append, List.getLast?_eq_some_getLast (List.cons_ne_nil c s), Option.some_or,
      ← List.getLast?_eq_some_getLast] at ht

theorem trimStart_cons {c : Char} {t : Text} (h : isBlank c = false) : trimStart (c :: t) = c :: t := by
  simp [trimStart, h]

theorem trimStart_append {s t : Text} (h : ∀ c ∈ s, isBlank c) : trimStart (s ++ t) = trimStart t :=
  List.dropWhile_append_of_pos h

theorem trimStart_eq_nil {t : Text} (h : ∀ c ∈ t, isBlank c) : trimStart t = [] := by
  have := trimStart_append (t := []) h
  rwa [List.append_nil] at this

theorem trimStart_trim (t : Text) : trimStart (trim t) = trim t := trimStart_trimEnd (trimStart_trimStart t)

theorem trim_of_trimStart (t : Text) : trim (trimStart t) = trim t := by
  unfold trim
  rw [trimStart_trimStart]

theorem head?_trimStart (t : Text) : (trimStart t).head?.any isBlank = false := by
  cases h : trimStart t with
  | nil => rfl
  | cons c rest =>
    have hc := List.head?_dropWhile_not isBlank t
    unfold trimStart at h
    rw [h] at hc
    simpa using hc

theorem trimStart_eq_iff {t rest : Text} :
    trimStart t = rest ↔ ∃ gap : Text, t = gap ++ rest ∧ (∀ c ∈ gap, isBlank c) ∧ rest.head?.any isBlank = false := by
  constructor
  · rintro rfl
    obtain ⟨gap, hgap, ht⟩ := exists_trimStart t
    exact ⟨gap, ht, hgap, head?_trimStart t⟩
  · rintro ⟨gap, rfl, hgap, hrest⟩
    rw [trimStart_append hgap]
    cases rest with
    | nil => rfl
    | cons c rest => exact trimStart_cons hrest

theorem trim_ne_nil {t : Text} (h : ¬ ∀ c ∈ t, isBlank c) : t.trim ≠ [] := by
  intro hnil
  obtain ⟨gap, hgap, ht⟩ := exists_trimStart t
  obtain ⟨gap', hgap', ht'⟩ := exists_trimEnd (trimStart t)
  rw [← trim, hnil, List.nil_append] at ht'
  rw [ht'] at ht
  refine h fun c hc => ?_
  rw [ht] at hc
  exact (List.mem_append.1 hc).elim (hgap c) (hgap' c)

theorem trim_trimEnd (t : Text) : trim (trimEnd t) = trim t := by
  obtain ⟨gap, hgap, ht⟩ := exists_trimEnd t
  have hgone : trimEnd (trimStart (trimEnd t ++ gap)) = trimEnd (trimStart (trimEnd t)) := by
    rw [trimStart_append_eq]
    split
    · rename_i hempty
      rw [trimStart_eq_nil hgap, List.isEmpty_iff.1 hempty]
    · rw [trimEnd_append, trimEnd_eq_nil hgap]
      rfl
  rw [trim, trim, ← hgone, ← ht]

end Text

end Marginalia
