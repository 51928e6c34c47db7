import Marginalia.Proofs.Text.Bytes
import Marginalia.Text.Raw
/-!
# Raw texts that are texts

The bytes of a text read back as that text and as no other (`RawText.toString?_eq_some_iff`), and they are shown as the
text itself (`RawText.display_ofString`).  A byte below 128 stands among the bytes of a text only for its own character
(`RawText.mem_ofString_iff`), so a name that is put together from texts can be taken apart as they were.
-/
namespace Marginalia

namespace RawText

theorem ofString_eq_bytes (s : String) : ofString s = Text.bytes s.toList := by
  rw [← Text.toUTF8_ofList, String.ofList_toList]
  rfl

theorem toByteArray_ofString (s : String) : (ofString s).toByteArray = s.toUTF8 := by
  apply ByteArray.ext
  apply Array.toList_inj.1
  exact List.toList_data_toByteArray

theorem toString?_ofString (s : String) : toString? (ofString s) = some s := by
  rw [toString?, toByteArray_ofString]
  exact dif_pos s.isValidUTF8

/-- **The bytes of a text read back as that text**, and nothing else does. -/
theorem toString?_eq_some_iff {raw : RawText} {s : String} : toString? raw = some s ↔ raw = ofString s := by
  constructor
  · intro h
    unfold toString? String.fromUTF8? at h
    split at h
    · obtain rfl := Option.some.inj h
      exact List.toList_data_toByteArray.symm
    · cases h
  · rintro rfl
    exact toString?_ofString s

theorem ofString_append (s t : String) : ofString (s ++ t) = ofString s ++ ofString t := by
  simp [ofString]

theorem mem_ofString_iff {c : Char} (hc : c.val.toNat < 128) {s : String} : c.toUInt8 ∈ ofString s ↔ c ∈ s.toList := by
  rw [ofString_eq_bytes, Text.mem_bytes_iff hc]

/-! ## Shown to a reader -/

theorem shown_append (raw : RawText) : ∀ skipped : RawText, shown skipped.length (skipped ++ raw) = shown 0 raw
  | [] => rfl
  | _ :: skipped => shown_append raw skipped

theorem shown_encode (c : Char) (raw : RawText) : shown 0 (String.utf8EncodeChar c ++ raw) = c :: shown 0 raw := by
  have hlength : (String.utf8EncodeChar c).length = c.utf8Size := String.length_utf8EncodeChar c
  have hpos := c.utf8Size_pos
  have hdecode : ((String.utf8EncodeChar c ++ raw).take 4).toByteArray.utf8DecodeChar? 0 = some c := by
    rw [List.take_append, List.take_of_length_le (hlength ▸ c.utf8Size_le_four), List.toByteArray_append]
    exact ByteArray.utf8DecodeChar?_utf8EncodeChar_append
  cases hencode : String.utf8EncodeChar c with
  | nil =>
    rw [hencode, List.length_nil] at hlength
    omega
  | cons b later =>
    rw [hencode, List.length_cons] at hlength
    rw [hencode] at hdecode
    rw [List.cons_append] at hdecode ⊢
    rw [shown, hdecode]
    dsimp only
    rw [← hlength, Nat.add_sub_cancel, shown_append]

/-- **What is text is shown as it is.** -/
theorem display_ofString (s : String) : display (ofString s) = s := by
  have hshown : ∀ t : Text, shown 0 t.bytes = t := by
    intro t
    induction t with
    | nil => rfl
    | cons c t ih => rw [Text.bytes_cons, shown_encode, ih]
  rw [display, ofString_eq_bytes, hshown, String.ofList_toList]

end RawText

end Marginalia
