import Marginalia.Proofs.Text.Bytes
import Marginalia.Proofs.Text.Dedent
import Marginalia.Proofs.Text.Occurrence
/-!
# Pieces between byte offsets

A piece of a text can be cut out between two offsets in order, if each of them is a boundary: no character lies across it,
and it is not behind the end (`slice?_isSome_iff`).  Boundaries are the offsets of the places in the text, so a piece is
known by the text around it (`slice?_eq_some_iff`).
-/
namespace Marginalia

namespace Text

/-- The text before an offset; none if the offset lies behind the text or inside a character. -/
def upTo? : (offset : Nat) → Text → Option Text
  | 0, _ => some []
  | _ + 1, [] => none
  | n + 1, c :: t => if c.utf8Size ≤ n + 1 then (upTo? (n + 1 - c.utf8Size) t).map (c :: ·) else none

/-- The text between two offsets; none if they are out of order, or if a cut fails. -/
def slice? (start stop : Nat) (t : Text) : Option Text :=
  if start ≤ stop then (from? start t).bind (upTo? (stop - start)) else none

/-- The offset is the place of a character, or the end. -/
def IsBoundary (t : Text) (offset : Nat) : Prop := String.Pos.Raw.IsValid (String.ofList t) ⟨offset⟩

theorem isBoundary_iff {t : Text} {offset : Nat} :
    t.IsBoundary offset ↔ ∃ before after, t = before ++ after ∧ before.byteLength = offset := by
  rw [IsBoundary, String.Pos.Raw.isValid_iff_exists_append]
  constructor
  · rintro ⟨p, q, hpq, hp⟩
    refine ⟨p.toList, q.toList, ?_, ?_⟩
    · rw [← String.toList_append, ← hpq, String.toList_ofList]
    · rw [byteLength_toList]
      exact (congrArg String.Pos.Raw.byteIdx hp).symm
  · rintro ⟨before, after, rfl, rfl⟩
    refine ⟨String.ofList before, String.ofList after, String.ofList_append, String.Pos.Raw.ext ?_⟩
    exact (utf8ByteSize_ofList before).symm

theorem IsBoundary.le {t : Text} {offset : Nat} (h : t.IsBoundary offset) : offset ≤ t.byteLength := by
  obtain ⟨before, after, rfl, rfl⟩ := isBoundary_iff.1 h
  rw [byteLength_append]
  exact Nat.le_add_right _ _

theorem from?_eq_some_iff {offset : Nat} {t rest : Text} :
    from? offset t = some rest ↔ ∃ before, t = before ++ rest ∧ before.byteLength = offset := by
  constructor
  · intro h
    fun_induction from? offset t with
    | case1 t => exact ⟨[], Option.some.inj h, rfl⟩
    | case2 => cases h
    | case3 n c t hle ih =>
      obtain ⟨before, rfl, hbefore⟩ := ih h
      exact ⟨c :: before, rfl, by rw [byteLength_cons]; omega⟩
    | case4 => cases h
  · rintro ⟨before, rfl, rfl⟩
    exact from?_byteLength before rest

theorem upTo?_byteLength : ∀ piece after : Text, upTo? (byteLength piece) (piece ++ after) = some piece
  | [], after => by
    rw [byteLength_nil, upTo?]
  | c :: piece, after => by
    have hpos := c.utf8Size_pos
    obtain ⟨n, hn⟩ : ∃ n, byteLength (c :: piece) = n + 1 := ⟨byteLength (c :: piece) - 1, by rw [byteLength_cons]; omega⟩
    have hrest : n + 1 - c.utf8Size = byteLength piece := by
      rw [← hn, byteLength_cons, Nat.add_sub_cancel_left]
    rw [hn, List.cons_append, upTo?, hrest, upTo?_byteLength piece after, if_pos (by rw [← hn, byteLength_cons]; omega)]
    rfl

theorem exists_upTo? : ∀ {offset : Nat} {t piece : Text}, upTo? offset t = some piece →
    ∃ after, t = piece ++ after ∧ piece.byteLength = offset
  | 0, t, piece, h => by
    rw [upTo?] at h
    obtain rfl := Option.some.inj h
    exact ⟨t, rfl, rfl⟩
  | n + 1, [], piece, h => by cases h
  | n + 1, c :: t, piece, h => by
    rw [upTo?] at h
    split at h
    · obtain ⟨rest, hrest, rfl⟩ := Option.map_eq_some_iff.1 h
      obtain ⟨after, rfl, hsize⟩ := exists_upTo? hrest
      exact ⟨after, rfl, by rw [byteLength_cons]; omega⟩
    · cases h

theorem upTo?_eq_some_iff {offset : Nat} {t piece : Text} :
    upTo? offset t = some piece ↔ ∃ after, t = piece ++ after ∧ piece.byteLength = offset := by
  refine ⟨exists_upTo?, ?_⟩
  rintro ⟨after, rfl, rfl⟩
  exact upTo?_byteLength piece after

/-- **A piece between two offsets** is what stands between the text before the one and the text behind the other. -/
theorem slice?_eq_some_iff {start stop : Nat} {t piece : Text} : slice? start stop t = some piece ↔
    ∃ before after, t = before ++ (piece ++ after) ∧ before.byteLength = start ∧ (before ++ piece).byteLength = stop := by
  rw [slice?]
  constructor
  · intro h
    split at h
    · rename_i hle
      obtain ⟨rest, hrest, hpiece⟩ := Option.bind_eq_some_iff.1 h
      obtain ⟨before, rfl, hbefore⟩ := from?_eq_some_iff.1 hrest
      obtain ⟨after, rfl, hsize⟩ := upTo?_eq_some_iff.1 hpiece
      exact ⟨before, after, rfl, hbefore, by rw [byteLength_append]; omega⟩
    · cases h
  · rintro ⟨before, after, rfl, rfl, rfl⟩
    rw [byteLength_append, if_pos (Nat.le_add_right _ _), Nat.add_sub_cancel_left, from?_byteLength, Option.bind_some,
      upTo?_byteLength]

/-- **A cut fails exactly if its offsets are out of order or one is no boundary.** -/
theorem slice?_isSome_iff {start stop : Nat} {t : Text} :
    (slice? start stop t).isSome ↔ start ≤ stop ∧ t.IsBoundary start ∧ t.IsBoundary stop := by
  rw [Option.isSome_iff_exists]
  simp only [slice?_eq_some_iff, isBoundary_iff]
  constructor
  · rintro ⟨piece, before, after, rfl, rfl, rfl⟩
    exact ⟨by rw [byteLength_append]; exact Nat.le_add_right _ _, ⟨before, piece ++ after, rfl, rfl⟩,
      ⟨before ++ piece, after, (List.append_assoc _ _ _).symm, rfl⟩⟩
  · rintro ⟨hle, ⟨before, rest, rfl, rfl⟩, p, after, hsplit, rfl⟩
    obtain ⟨piece, rfl⟩ := prefix_of_byteLength_le hsplit hle
    rw [List.append_assoc] at hsplit
    exact ⟨piece, before, after, by rw [List.append_cancel_left hsplit], rfl, rfl⟩

end Text

end Marginalia
