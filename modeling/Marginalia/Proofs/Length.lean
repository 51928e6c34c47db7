import Marginalia.Proofs.Document
/-!
# Documents that are too long

A document is refused for its length in characters and for nothing else (`Document.parse_by_length`).  Its length in
bytes, which is known without reading it, is at least as great and at most four times as great, so it settles the matter
where it is within the limit.  It settles nothing between the limit and four times the limit: every byte length there
belongs to documents on both sides (`Text.exists_bytes`).
-/
namespace Marginalia

namespace Text

theorem exists_utf8Size {size : Nat} (hlow : 0 < size) (hhigh : size ≤ 4) : ∃ c : Char, c.utf8Size = size := by
  obtain rfl | rfl | rfl | rfl : size = 1 ∨ size = 2 ∨ size = 3 ∨ size = 4 := by omega
  · exact ⟨'a', rfl⟩
  · exact ⟨'é', rfl⟩
  · exact ⟨'図', rfl⟩
  · exact ⟨'😀', rfl⟩

/-- **So many characters may take any number of bytes** from one for each up to four for each. -/
theorem exists_bytes : ∀ {length size : Nat}, length ≤ size → size ≤ 4 * length →
    ∃ t : Text, t.length = length ∧ t.byteLength = size
  | 0, size, _, hhigh => ⟨[], rfl, by rw [byteLength_nil]; omega⟩
  | length + 1, size, hlow, hhigh => by
    -- the first character takes as much as it can and leaves a byte for each of the others
    have hpos : 0 < min 4 (size - length) := by omega
    have hlow' : length ≤ size - min 4 (size - length) := by omega
    obtain ⟨c, hc⟩ := exists_utf8Size hpos (Nat.min_le_left _ _)
    obtain ⟨t, hlength, hsize⟩ := exists_bytes hlow' (by omega)
    refine ⟨c :: t, by rw [List.length_cons, hlength], ?_⟩
    rw [byteLength_cons, hc, hsize]
    omega

end Text

namespace Document

theorem length_le_utf8ByteSize (text : String) : text.length ≤ text.utf8ByteSize := by
  rw [← Text.byteLength_toList, ← String.length_toList]
  exact Text.length_le_byteLength _

theorem utf8ByteSize_le (text : String) : text.utf8ByteSize ≤ 4 * text.length := by
  rw [← Text.byteLength_toList, ← String.length_toList]
  exact Text.byteLength_le _

/-- **Looking at the bytes first makes no difference.** -/
theorem checkLength_eq (text : String) :
    checkLength text = if text.length ≤ maximumLength then .ok () else .error (.tooLong text.length) := by
  have := checkLength_ofList text.toList
  rwa [String.ofList_toList, String.length_toList] at this

theorem parse_eq (language : Language) (text : String) : parse language text =
    if text.length ≤ maximumLength then .ok (blocks language.grammar.styles language text.toList)
    else .error (.tooLong text.length) := by
  have := parse_ofList language text.toList
  rwa [String.ofList_toList, String.length_toList] at this

/-- **A document is refused exactly if it has more than a million characters**, with the number of them, whatever it
holds; every other document is searched, and the blocks of its comments are found.  The check is as if the characters
were always counted, since the bytes are no fewer than they and no more than four times as many.  But from a million
bytes up to four millions, any number of them is that of a document that is searched and of one that is refused. -/
theorem parse_by_length (language : Language) (text : String) :
    (∀ error, parse language text = .error error ↔ 1000000 < text.length ∧ error = .tooLong text.length) ∧
    (∀ found, parse language text = .ok found ↔
      text.length ≤ 1000000 ∧ found = blocks language.grammar.styles language text.toList) ∧
    checkLength text = (if text.length ≤ 1000000 then .ok () else .error (.tooLong text.length)) ∧
    text.length ≤ text.utf8ByteSize ∧ text.utf8ByteSize ≤ 4 * text.length ∧
    ∀ size, 1000000 < size → size ≤ 4 * 1000000 → ∃ short long : String, short.utf8ByteSize = size ∧
      long.utf8ByteSize = size ∧ (∃ found, parse language short = .ok found) ∧
      parse language long = .error (.tooLong long.length) := by
  refine ⟨fun error => ?_, fun found => ?_, checkLength_eq text, length_le_utf8ByteSize text, utf8ByteSize_le text,
    fun size hlow hhigh => ?_⟩
  · rw [parse_eq, maximumLength]
    by_cases hlen : text.length ≤ 1000000
    · simp [hlen, Nat.not_lt_of_le hlen]
    · simp [hlen, Nat.lt_of_not_le hlen, eq_comm]
  · rw [parse_eq, maximumLength]
    by_cases hlen : text.length ≤ 1000000
    · simp [hlen, eq_comm]
    · simp [hlen]
  · have hlow' : 1000001 ≤ size := hlow
    obtain ⟨short, hshort, hshortSize⟩ := Text.exists_bytes (Nat.le_of_lt hlow) hhigh
    obtain ⟨long, hlong, hlongSize⟩ := Text.exists_bytes hlow' (by omega)
    refine ⟨String.ofList short, String.ofList long, by rw [Text.utf8ByteSize_ofList, hshortSize],
      by rw [Text.utf8ByteSize_ofList, hlongSize], ⟨_, parse_of_length_le language ?_⟩, ?_⟩
    · rw [hshort, maximumLength]
    · rw [parse_ofList, hlong, maximumLength, if_neg (by decide), String.length_ofList, hlong]

/-- As many bytes as a character more than the limit takes at most. -/
theorem parse_by_length_undecided : 1000000 < 1000004 ∧ 1000004 ≤ 4 * 1000000 ∧
    ∃ short long : String, short.utf8ByteSize = 1000004 ∧ long.utf8ByteSize = 1000004 ∧
      (∃ found, parse .python short = .ok found) ∧ parse .python long = .error (.tooLong long.length) :=
  ⟨by decide, by decide, (parse_by_length .python "").2.2.2.2.2 1000004 (by decide) (by decide)⟩

end Document

end Marginalia
