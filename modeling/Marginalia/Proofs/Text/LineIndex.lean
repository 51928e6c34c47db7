import Marginalia.Text.LineIndex
import Marginalia.Proofs.Text.Occurrence
/-!
# The table of newlines counts newlines

Halving the table ends at the place where the entries below an offset stop (`search_parts`).  As the table holds the
offsets of all newlines in rising order, that place is the number of newlines before the offset (`lineOf_ofText`).
The rest is about that number alone: behind a beginning of the text it is the number of its newlines
(`lineOf_byteLength`), and text put in front adds its own newlines to it (`lineOf_append`).
-/
namespace Marginalia

namespace Text

def newlineOffsetsFrom (pos : Nat) : Text → List Nat
  | [] => []
  | c :: t => if c = '\n' then pos :: newlineOffsetsFrom (pos + c.utf8Size) t else newlineOffsetsFrom (pos + c.utf8Size) t

theorem foldl_newlineOffsets : ∀ (t : Text) (pos : Nat) (found : Array Nat),
    (t.foldl (fun (offset, found) c =>
      (offset + c.utf8Size, if c = '\n' then found.push offset else found)) (pos, found)).2
        = found ++ newlineOffsetsFrom pos t
  | [], _, _ => by simp [newlineOffsetsFrom]
  | c :: t, pos, found => by
    rw [List.foldl_cons, foldl_newlineOffsets t, newlineOffsetsFrom]
    split <;> simp

theorem newlineOffsets_eq (t : Text) : newlineOffsets t = (newlineOffsetsFrom 0 t).toArray := by
  rw [newlineOffsets, foldl_newlineOffsets]
  simp

theorem le_of_mem_newlineOffsetsFrom {offset : Nat} : ∀ {t : Text} {pos : Nat}, offset ∈ newlineOffsetsFrom pos t →
    pos ≤ offset
  | c :: t, pos, h => by
    have hrest : offset ∈ newlineOffsetsFrom (pos + c.utf8Size) t → pos ≤ offset := fun hin => by
      have := le_of_mem_newlineOffsetsFrom hin
      omega
    rw [newlineOffsetsFrom] at h
    split at h
    · rcases List.mem_cons.1 h with rfl | hin
      · exact Nat.le_refl _
      · exact hrest hin
    · exact hrest h

theorem pairwise_newlineOffsetsFrom : ∀ (t : Text) (pos : Nat), (newlineOffsetsFrom pos t).Pairwise (· < ·)
  | [], _ => List.Pairwise.nil
  | c :: t, pos => by
    have ih := pairwise_newlineOffsetsFrom t (pos + c.utf8Size)
    rw [newlineOffsetsFrom]
    split
    · refine List.pairwise_cons.2 ⟨fun offset hin => ?_, ih⟩
      have := le_of_mem_newlineOffsetsFrom hin
      have := c.utf8Size_pos
      omega
    · exact ih

theorem countP_newlineOffsetsFrom : ∀ (t : Text) (pos offset : Nat),
    (newlineOffsetsFrom pos t).countP (· < offset) = lineOf t (offset - pos)
  | [], _, _ => rfl
  | c :: t, pos, offset => by
    have ih := countP_newlineOffsetsFrom t (pos + c.utf8Size) offset
    by_cases hle : offset ≤ pos
    · rw [Nat.sub_eq_zero_of_le hle, lineOf, List.countP_eq_zero]
      intro o hin
      have := le_of_mem_newlineOffsetsFrom hin
      simp only [decide_eq_true_eq]
      omega
    · obtain ⟨n, hn⟩ : ∃ n, offset - pos = n + 1 := ⟨offset - pos - 1, by omega⟩
      rw [hn, lineOf, ← hn, Nat.sub_sub, ← ih, newlineOffsetsFrom]
      · split
        · rw [List.countP_cons, if_pos (by simp only [decide_eq_true_eq]; omega)]
          omega
        · rw [Nat.zero_add]
      · omega

/-! ## The number of newlines before an offset -/

theorem lineOf_zero (t : Text) : lineOf t 0 = 0 := by
  cases t <;> rfl

theorem lineOf_cons (c : Char) (t : Text) {offset : Nat} (h : 0 < offset) :
    lineOf (c :: t) offset = (if c = '\n' then 1 else 0) + lineOf t (offset - c.utf8Size) := by
  cases offset with
  | zero => exact absurd h (Nat.lt_irrefl 0)
  | succ n => rfl

/-- **Text put in front of an offset adds its newlines.** -/
theorem lineOf_append : ∀ (before t : Text) (offset : Nat),
    lineOf (before ++ t) (byteLength before + offset) = before.count '\n' + lineOf t offset
  | [], t, offset => by simp
  | c :: before, t, offset => by
    have hpos := c.utf8Size_pos
    rw [List.cons_append, byteLength_cons, lineOf_cons _ _ (by omega), Nat.add_assoc, Nat.add_sub_cancel_left,
      lineOf_append before t offset, List.count_cons]
    simp only [beq_iff_eq]
    omega

theorem lineOf_byteLength (before t : Text) : lineOf (before ++ t) (byteLength before) = before.count '\n' := by
  have := lineOf_append before t 0
  rwa [lineOf_zero, Nat.add_zero, Nat.add_zero] at this

theorem lineOf_mono : ∀ (t : Text) {low high : Nat}, low ≤ high → lineOf t low ≤ lineOf t high
  | [], _, _, _ => Nat.le_refl 0
  | c :: t, 0, _, _ => Nat.zero_le _
  | c :: t, low + 1, high, h => by
    have ih := lineOf_mono t (Nat.sub_le_sub_right h c.utf8Size)
    rw [lineOf_cons c t (Nat.add_one_pos low), lineOf_cons c t (by omega)]
    omega

/-- Offsets with the same line have only offsets of that line between them. -/
theorem lineOf_eq_of_between {t : Text} {low offset high : Nat} (hlow : low ≤ offset) (hhigh : offset ≤ high)
    (h : lineOf t low = lineOf t high) : lineOf t offset = lineOf t low :=
  Nat.le_antisymm (h ▸ lineOf_mono t hhigh) (lineOf_mono t hlow)

/-- A text begins with any smaller number of its newlines. -/
theorem exists_prefix_count : ∀ (t : Text) {n : Nat}, n ≤ t.count '\n' → ∃ p q, t = p ++ q ∧ p.count '\n' = n
  | t, 0, _ => ⟨[], t, rfl, rfl⟩
  | [], n + 1, h => absurd h (Nat.not_succ_le_zero n)
  | c :: t, n + 1, h => by
    by_cases hc : c = '\n'
    · rw [hc, List.count_cons_self] at h
      obtain ⟨p, q, rfl, hp⟩ := exists_prefix_count t (Nat.le_of_succ_le_succ h)
      exact ⟨c :: p, q, rfl, by rw [hc, List.count_cons_self, hp]⟩
    · rw [List.count_cons_of_ne hc] at h
      obtain ⟨p, q, rfl, hp⟩ := exists_prefix_count t h
      exact ⟨c :: p, q, rfl, by rw [List.count_cons_of_ne hc, hp]⟩

theorem lineOf_le_length : ∀ (t : Text) (offset : Nat), lineOf t offset ≤ t.length
  | [], _ => Nat.le_refl 0
  | c :: t, 0 => Nat.zero_le _
  | c :: t, offset + 1 => by
    have ih := lineOf_le_length t (offset + 1 - c.utf8Size)
    rw [lineOf_cons c t (Nat.add_one_pos offset), List.length_cons]
    split <;> omega

end Text

namespace LineIndex

/-- The entries before `low` are below `offset`, and those from `high` on are not. -/
structure Parts (newlines : Array Nat) (offset low high : Nat) : Prop where
  below : ∀ i (h : i < newlines.size), i < low → newlines[i] < offset
  above : ∀ i (h : i < newlines.size), high ≤ i → offset ≤ newlines[i]

theorem parts_start (newlines : Array Nat) (offset : Nat) : Parts newlines offset 0 newlines.size where
  below i _ hi := absurd hi (Nat.not_lt_zero i)
  above _ hi hle := absurd hle (Nat.not_le_of_lt hi)

theorem search_parts {newlines : Array Nat} {offset : Nat}
    (hrise : ∀ i j (hi : i < newlines.size) (hj : j < newlines.size), i ≤ j → newlines[i] ≤ newlines[j])
    {low high : Nat} (hle : low ≤ high) (hsize : high ≤ newlines.size) (h : Parts newlines offset low high) :
    search newlines offset low high ≤ newlines.size ∧
      Parts newlines offset (search newlines offset low high) (search newlines offset low high) := by
  fun_induction search newlines offset low high with
  | case1 low high hlt middle entry hentry hbelow ih =>
    obtain ⟨hm, rfl⟩ := Array.getElem?_eq_some_iff.1 hentry
    refine ih (by omega) hsize ⟨fun i hi hlow => ?_, h.above⟩
    have := hrise i middle hi hm (by omega)
    omega
  | case2 low high hlt middle entry hentry hbelow ih =>
    obtain ⟨hm, rfl⟩ := Array.getElem?_eq_some_iff.1 hentry
    refine ih (by omega) (by omega) ⟨h.below, fun i hi hhigh => ?_⟩
    have := hrise middle i hm hi hhigh
    omega
  | case3 low high hlt middle hnone ih =>
    have := Array.getElem?_eq_none_iff.1 hnone
    omega
  | case4 low high hlt =>
    obtain rfl : low = high := by omega
    exact ⟨hsize, h⟩

theorem countP_of_parts {newlines : Array Nat} {offset n : Nat} (hn : n ≤ newlines.size)
    (h : Parts newlines offset n n) : newlines.toList.countP (· < offset) = n := by
  have hbelow : (newlines.toList.take n).countP (· < offset) = (newlines.toList.take n).length := by
    rw [List.countP_eq_length]
    intro entry hin
    obtain ⟨i, hi, rfl⟩ := List.mem_take_iff_getElem.1 hin
    simpa using h.below i (by simpa using Nat.lt_of_lt_of_le hi (Nat.min_le_right _ _)) (by omega)
  have habove : (newlines.toList.drop n).countP (· < offset) = 0 := by
    rw [List.countP_eq_zero]
    intro entry hin
    obtain ⟨i, hi, rfl⟩ := List.mem_drop_iff_getElem.1 hin
    simpa using h.above (n + i) (by simpa [Nat.add_comm] using hi) (by omega)
  rw [← List.take_append_drop n newlines.toList, List.countP_append, hbelow, habove, List.length_take,
    Array.length_toList]
  omega

/-- **The table of a text finds the line of every offset.** -/
theorem lineOf_ofText (t : Text) (offset : Nat) : (ofText t).lineOf offset = t.lineOf offset := by
  have htable : (ofText t).newlines.toList = Text.newlineOffsetsFrom 0 t := by
    rw [ofText, Text.newlineOffsets_eq]
  have hrise : ∀ i j (hi : i < (ofText t).newlines.size) (hj : j < (ofText t).newlines.size), i ≤ j →
      (ofText t).newlines[i] ≤ (ofText t).newlines[j] := by
    intro i j hi hj hij
    have hpair := Text.pairwise_newlineOffsetsFrom t 0
    rw [← htable, List.pairwise_iff_getElem] at hpair
    rcases Nat.lt_or_eq_of_le hij with hlt | rfl
    · have := hpair i j (by simpa using hi) (by simpa using hj) hlt
      simpa using Nat.le_of_lt this
    · exact Nat.le_refl _
  obtain ⟨hsize, hparts⟩ := search_parts hrise (Nat.zero_le _) (Nat.le_refl _) (parts_start _ offset)
  rw [lineOf, ← countP_of_parts hsize hparts, htable, Text.countP_newlineOffsetsFrom, Nat.sub_zero]

end LineIndex

end Marginalia
