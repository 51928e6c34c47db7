import Marginalia.Comment.Style
import Marginalia.Proofs.Comment.Marker
import Marginalia.Proofs.Text.Blank
/-!
# Writing a marker that is read

A marker is the word in any letter case, bare, behind an `@` or before a colon.  On a line of its own it announces what
stands below it: in a block comment behind any margin of stars and white space (`leading?_announced`), in a docstring
behind any indentation (`inDocstring?_announced`).
-/
namespace Marginalia

namespace Marker

open Text (trimStart)

/-- The three ways to write a marker. -/
inductive IsMarker : Text → Prop
  | bare {s : Text} : s.map Char.toLower = word → IsMarker s
  | tagged {s : Text} : s.map Char.toLower = word → IsMarker ('@' :: s)
  | titled {s : Text} : s.map Char.toLower = word → IsMarker (s ++ [':'])

section Word

variable {s : Text} (h : s.map Char.toLower = word)
include h

theorem toLower_mem {c : Char} (hc : c ∈ s) : c.toLower ∈ word := by
  rw [← h]
  exact List.mem_map_of_mem hc

theorem map_foldCase : s.map foldCase = word.map foldCase := by
  have hword : word.map foldCase = word := by decide
  rw [hword, ← h]
  refine List.map_congr_left fun c hc => ?_
  have hlower := toLower_mem h hc
  have hs : c ≠ '\u017F' := by
    rintro rfl
    revert hlower
    decide
  have hk : c ≠ '\u212A' := by
    rintro rfl
    revert hlower
    decide
  rw [foldCase, if_neg hs, if_neg hk]

theorem isBlank_word {c : Char} (hc : c ∈ s) : isBlank c = false := by
  have hfold : foldCase c ∈ word.map foldCase := map_foldCase h ▸ List.mem_map_of_mem hc
  obtain ⟨w, hw, hwc⟩ := List.mem_map.1 hfold
  rw [← isBlank_foldCase, ← hwc, isBlank_foldCase_word w hw]

theorem not_mem_word {c : Char} (hc : c.toLower ∉ word) : c ∉ s := fun hin => hc (toLower_mem h hin)

theorem ne_nil : s ≠ [] := by
  rintro rfl
  cases h

end Word

theorem afterWord?_word {s : Text} (h : s.map Char.toLower = word) {t : Text} (ht : t.head? ≠ some ':') :
    afterWord? (s ++ t) = some t := by
  rw [afterWord?, Text.afterWord?_append t (map_foldCase h)]
  split
  · rename_i rest heq
    obtain rfl := Option.some.inj heq
    exact absurd rfl ht
  · rfl

theorem afterWord?_colon {s : Text} (h : s.map Char.toLower = word) (t : Text) :
    afterWord? (s ++ ':' :: t) = some t := by
  rw [afterWord?, Text.afterWord?_append _ (map_foldCase h)]
  rfl

namespace IsMarker

variable {mark : Text}

theorem head (h : IsMarker mark) (rest : Text) :
    ∃ c t, mark ++ rest = c :: t ∧ isBlank c = false ∧ c ≠ '*' := by
  have hletter : ∀ {s : Text} (t : Text), s.map Char.toLower = word →
      ∃ c u, s ++ t = c :: u ∧ isBlank c = false ∧ c ≠ '*' := by
    intro s t hs
    obtain ⟨c, u, rfl⟩ := List.exists_cons_of_ne_nil (ne_nil hs)
    refine ⟨c, u ++ t, rfl, isBlank_word hs List.mem_cons_self, ?_⟩
    rintro rfl
    exact not_mem_word hs (by decide) List.mem_cons_self
  cases h with
  | bare hs => exact hletter rest hs
  | @tagged s hs => exact ⟨'@', s ++ rest, rfl, by decide, by decide⟩
  | @titled s hs =>
    rw [List.append_assoc]
    exact hletter _ hs

theorem not_mem (h : IsMarker mark) {c : Char} (hc : c.toLower ∉ '@' :: ':' :: word) : c ∉ mark := by
  have hword : c.toLower ∉ word := fun hin => hc (by simp [hin])
  have hat : c ≠ '@' := by
    rintro rfl
    exact hc (by decide)
  have hcolon : c ≠ ':' := by
    rintro rfl
    exact hc (by decide)
  cases h with
  | bare hs => exact not_mem_word hs hword
  | tagged hs => simp [hat, not_mem_word hs hword]
  | titled hs => simp [hcolon, not_mem_word hs hword]

theorem afterWord?_dropAt (h : IsMarker mark) {c : Char} (hc : c ≠ ':') (t : Text) :
    afterWord? (dropAt (mark ++ c :: t)) = some (c :: t) := by
  have hhead : ∀ {s : Text} (u : Text), s.map Char.toLower = word → (s ++ u).head? ≠ some '@' := by
    intro s u hs
    obtain ⟨x, v, rfl⟩ := List.exists_cons_of_ne_nil (ne_nil hs)
    rw [List.cons_append, List.head?_cons]
    rintro hx
    obtain rfl := Option.some.inj hx
    exact not_mem_word hs (by decide) List.mem_cons_self
  have hnext : (c :: t).head? ≠ some ':' := by simpa using hc
  cases h with
  | bare hs => rw [dropAt_of_head (hhead _ hs), afterWord?_word hs hnext]
  | tagged hs => exact afterWord?_word hs hnext
  | titled hs =>
    rw [List.append_assoc, dropAt_of_head (hhead _ hs), List.singleton_append, afterWord?_colon hs]

end IsMarker

/-- **A marker that follows stars and white space leads a block comment.** -/
theorem leading?_announced {mark margin : Text} (hmark : IsMarker mark) (hmargin : ∀ c ∈ margin, c = '*' ∨ isBlank c)
    (t : Text) : leading? (margin ++ (mark ++ '\n' :: t)) = some (trimStart t) := by
  obtain ⟨c, u, hhead, hblank, hstar⟩ := hmark.head ('\n' :: t)
  rw [leading?, List.dropWhile_append_of_pos (by simpa using hmargin), hhead,
    List.dropWhile_cons_of_neg (by simp [hblank, hstar]), ← hhead, hmark.afterWord?_dropAt (by decide)]
  rfl

theorem inDocstring?_of_afterWord? {c : Char} {t rest : Text} (h : afterWord? (c :: t) = some ('\n' :: rest))
    {gap x : Text} {y : Char} (hrest : rest = gap ++ y :: x) (hgap : ∀ c ∈ gap, isBlank c = true ∧ c ≠ '\n')
    (hy : isBlank y = false) : inDocstring? (c :: t) = some rest := by
  have hafter : afterNewlineFrom? none ('\n' :: rest) = some rest := by
    rw [afterNewlineFrom?_newline, hrest, afterNewlineFrom?_gap hgap, afterNewlineFrom?, if_neg (by simp [hy])]
  rw [inDocstring?, h, Option.bind_some, hafter]

/-- **A marker on a line of its own announces a diagram in a docstring.** -/
theorem inDocstring?_announced {mark before : Text} (hmark : IsMarker mark) (hbefore : ∀ c ∈ before, foldCase c ≠ 'm')
    {rest gap x : Text} {y : Char} (hrest : rest = gap ++ y :: x) (hgap : ∀ c ∈ gap, isBlank c = true ∧ c ≠ '\n')
    (hy : isBlank y = false) : inDocstring? (before ++ (mark ++ '\n' :: rest)) = some rest := by
  have hafter := hmark.afterWord?_dropAt (c := '\n') (by decide) rest
  rw [inDocstring?_append _ hbefore]
  cases hmark with
  | tagged hs =>
    obtain ⟨c, t, rfl⟩ := List.exists_cons_of_ne_nil (ne_nil hs)
    rw [List.cons_append, inDocstring?_pass (by decide)]
    exact inDocstring?_of_afterWord? hafter hrest hgap hy
  | bare hs =>
    obtain ⟨c, t, rfl⟩ := List.exists_cons_of_ne_nil (ne_nil hs)
    exact inDocstring?_of_afterWord? (afterWord?_word hs (by simp)) hrest hgap hy
  | titled hs =>
    obtain ⟨c, t, rfl⟩ := List.exists_cons_of_ne_nil (ne_nil hs)
    rw [List.append_assoc]
    exact inDocstring?_of_afterWord? (afterWord?_colon hs ('\n' :: rest)) hrest hgap hy

end Marker

end Marginalia
