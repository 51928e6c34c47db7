import Marginalia.Text.LineIndex
/-!
# Texts in UTF-8

A text is written in bytes character by character, from one byte up to four for each.  So the bytes bound the characters
from above, and the characters the bytes (`byteLength_le`).  All bytes of a character beyond ASCII have their highest bit
set; hence the byte of the newline stands for a newline wherever it occurs, and the newlines before an offset are counted
by counting bytes, even if the offset lies inside a character or behind the text (`lineOf_eq_count`).
-/
namespace Marginalia

namespace Text

/-- The text in UTF-8. -/
def bytes (t : Text) : List UInt8 := t.flatMap String.utf8EncodeChar

theorem toUTF8_ofList (t : Text) : (String.ofList t).toUTF8.data.toList = t.bytes := by
  show (String.ofList t).toByteArray.data.toList = t.bytes
  rw [String.toByteArray_ofList, List.utf8Encode, List.toList_data_toByteArray, bytes]

@[simp] theorem bytes_nil : bytes [] = [] := rfl

@[simp] theorem bytes_cons (c : Char) (t : Text) : bytes (c :: t) = String.utf8EncodeChar c ++ bytes t :=
  List.flatMap_cons

theorem length_bytes : ∀ t : Text, t.bytes.length = t.byteLength
  | [] => rfl
  | c :: t => by rw [bytes_cons, List.length_append, String.length_utf8EncodeChar, length_bytes t, byteLength_cons]

theorem utf8ByteSize_ofList (t : Text) : (String.ofList t).utf8ByteSize = t.byteLength := by
  rw [← length_bytes, ← toUTF8_ofList, Array.length_toList]
  rfl

theorem byteLength_toList (text : String) : byteLength text.toList = text.utf8ByteSize := by
  rw [← utf8ByteSize_ofList, String.ofList_toList]

theorem byteLength_le : ∀ t : Text, t.byteLength ≤ 4 * t.length
  | [] => Nat.le_refl 0
  | c :: t => by
    have ih := byteLength_le t
    have := c.utf8Size_le_four
    rw [byteLength_cons, List.length_cons]
    omega

/-! ## ASCII -/

/-- A byte below 128 is all of its character. -/
theorem toNat_of_mem {c : Char} {b : UInt8} (h : b ∈ String.utf8EncodeChar c) : b.toNat = c.val.toNat ∨ 128 ≤ b.toNat := by
  unfold String.utf8EncodeChar at h
  dsimp only at h
  split at h
  · rw [List.mem_singleton.1 h, UInt8.toNat_ofNat']
    omega
  · refine Or.inr ?_
    split at h
    · simp only [List.mem_cons, List.not_mem_nil, or_false] at h
      rcases h with rfl | rfl <;> (rw [UInt8.toNat_ofNat']; omega)
    · split at h
      · simp only [List.mem_cons, List.not_mem_nil, or_false] at h
        rcases h with rfl | rfl | rfl <;> (rw [UInt8.toNat_ofNat']; omega)
      · simp only [List.mem_cons, List.not_mem_nil, or_false] at h
        rcases h with rfl | rfl | rfl | rfl <;> (rw [UInt8.toNat_ofNat']; omega)

/-- The byte of an ASCII character stands among the bytes of a text only for the character. -/
theorem mem_bytes_iff {c : Char} (hc : c.val.toNat < 128) {t : Text} : c.toUInt8 ∈ t.bytes ↔ c ∈ t := by
  have hbyte : c.toUInt8.toNat = c.val.toNat := by
    rw [Char.toUInt8, UInt32.toNat_toUInt8]
    omega
  have hencode : String.utf8EncodeChar c = [c.toUInt8] := by
    unfold String.utf8EncodeChar
    dsimp only
    rw [if_pos (by omega)]
    rfl
  constructor
  · intro h
    obtain ⟨d, hd, hmem⟩ := List.mem_flatMap.1 h
    rcases toNat_of_mem hmem with heq | hlarge
    · obtain rfl : c = d := Char.ext (UInt32.toNat_inj.1 (hbyte.symm.trans heq))
      exact hd
    · omega
  · intro h
    refine List.mem_flatMap.2 ⟨c, h, ?_⟩
    rw [hencode]
    exact List.mem_singleton_self _

/-! ## The byte of the newline -/

theorem eq_newline_of_mem {c : Char} (h : 10 ∈ String.utf8EncodeChar c) : c = '\n' := by
  rcases toNat_of_mem h with heq | hlarge
  · exact Char.ext (UInt32.toNat_inj.1 heq.symm)
  · exact absurd hlarge (by decide)

theorem count_newline_take (c : Char) {n : Nat} (hn : 0 < n) :
    ((String.utf8EncodeChar c).take n).count 10 = if c = '\n' then 1 else 0 := by
  split
  · rename_i hc
    subst hc
    have hencode : String.utf8EncodeChar '\n' = [10] := by decide
    rw [hencode, List.take_of_length_le hn]
    rfl
  · rename_i hc
    exact List.count_eq_zero_of_not_mem fun hin => hc (eq_newline_of_mem (List.mem_of_mem_take hin))

/-- **The line of an offset is the number of newline bytes before it.** -/
theorem lineOf_eq_count : ∀ (t : Text) (offset : Nat), lineOf t offset = (t.bytes.take offset).count 10
  | [], _ => by rw [bytes_nil, List.take_nil, lineOf, List.count_nil]
  | _ :: _, 0 => rfl
  | c :: t, offset + 1 => by
    have hpos := Nat.add_one_pos offset
    rw [lineOf, lineOf_eq_count t, bytes_cons, List.take_append, List.count_append, String.length_utf8EncodeChar,
      count_newline_take c hpos]
    exact Nat.ne_of_gt hpos

end Text

end Marginalia
