import Marginalia.Document
import Marginalia.Proofs.Text.Bytes
import Marginalia.Proofs.Text.LineIndex
/-!
# From bytes to ranges of lines

The table of a text, halved, finds the number of newline bytes before any offset.  That number grows with the offset, so
two offsets in order have lines in order and the range between them can be made, unless the later line has no line number
of 32 bits (`LineIndex.range?_eq_none_iff`).
-/
namespace Marginalia

theorem LineNumber.toOption_ofCount_eq_some_iff {count : Nat} {line : LineNumber} :
    (ofCount count).toOption = some line ↔ line.value = count := by
  unfold ofCount
  split
  · constructor
    · intro h
      rw [← Option.some.inj h]
    · rintro rfl
      rfl
  · rename_i hlarge
    constructor
    · intro h
      cases h
    · rintro rfl
      exact absurd line.value_lt hlarge

theorem LineRange.toOption_of_eq_some_iff {first last : LineNumber} {range : LineRange} :
    (LineRange.of first last).toOption = some range ↔ range.first = first ∧ range.last = last := by
  unfold LineRange.of
  split
  · constructor
    · intro h
      rw [← Option.some.inj h]
      exact ⟨rfl, rfl⟩
    · rintro ⟨rfl, rfl⟩
      rfl
  · rename_i hback
    constructor
    · intro h
      cases h
    · rintro ⟨rfl, rfl⟩
      exact absurd range.first_le_last hback

namespace LineIndex

variable {t : Text} {start stop : Nat}

/-- **The range between two offsets is that of their lines.** -/
theorem range?_eq_some_iff {range : LineRange} : (ofText t).range? start stop = some range ↔
    start < stop ∧ range.first.value = t.lineOf start ∧ range.last.value = t.lineOf stop := by
  rw [range?, lineOf_ofText, lineOf_ofText]
  split
  · rename_i hback
    simp [Nat.not_lt_of_le hback]
  · rename_i hlt
    simp only [Option.bind_eq_bind, Option.bind_eq_some_iff, LineNumber.toOption_ofCount_eq_some_iff,
      LineRange.toOption_of_eq_some_iff]
    constructor
    · rintro ⟨first, hfirst, last, hlast, rfl, rfl⟩
      exact ⟨Nat.lt_of_not_le hlt, hfirst, hlast⟩
    · rintro ⟨-, hfirst, hlast⟩
      exact ⟨_, hfirst, _, hlast, rfl, rfl⟩

theorem range?_eq_none_iff : (ofText t).range? start stop = none ↔ stop ≤ start ∨ 4294967296 ≤ t.lineOf stop := by
  constructor
  · intro hnone
    refine Classical.byContradiction fun h => ?_
    obtain ⟨hlt, hlast⟩ : start < stop ∧ t.lineOf stop < 4294967296 := by omega
    have hle := t.lineOf_mono (Nat.le_of_lt hlt)
    have hrange : (ofText t).range? start stop = some ⟨⟨t.lineOf start, by omega⟩, ⟨t.lineOf stop, hlast⟩, hle⟩ :=
      range?_eq_some_iff.2 ⟨hlt, rfl, rfl⟩
    rw [hnone] at hrange
    cases hrange
  · intro h
    refine Option.eq_none_iff_forall_ne_some.2 fun range hsome => ?_
    obtain ⟨hlt, -, hlast⟩ := range?_eq_some_iff.1 hsome
    have := range.last.value_lt
    omega

end LineIndex

namespace Text

/-- At the end of a text and behind it all newlines have been counted. -/
theorem lineOf_of_le {t : Text} {offset : Nat} (h : t.byteLength ≤ offset) : t.lineOf offset = t.count '\n' := by
  have := lineOf_append t [] (offset - t.byteLength)
  rwa [List.append_nil, Nat.add_sub_cancel' h, lineOf, Nat.add_zero] at this

theorem lineOf_le_count (t : Text) (offset : Nat) : t.lineOf offset ≤ t.count '\n' := by
  rw [← lineOf_of_le (Nat.le_max_left t.byteLength offset)]
  exact t.lineOf_mono (Nat.le_max_right _ _)

end Text

/-- **The table counts newline bytes, at every offset**: also inside a character, and behind the end, where it has counted
all of them.  Later offsets have later lines.  So there is a range between two offsets exactly if they are in order and
the later line is below 2³², as all lines are in a text with fewer newlines; and it is the range of their lines. -/
theorem LineIndex.counts_newlines (text : String) :
    (∀ offset, (ofText text.toList).lineOf offset = (text.toUTF8.data.toList.take offset).count 10) ∧
    (∀ low high, low ≤ high → (ofText text.toList).lineOf low ≤ (ofText text.toList).lineOf high) ∧
    (∀ offset, text.utf8ByteSize ≤ offset → (ofText text.toList).lineOf offset = text.toList.count '\n') ∧
    (∀ start stop, (ofText text.toList).range? start stop = none ↔
      stop ≤ start ∨ 4294967296 ≤ (ofText text.toList).lineOf stop) ∧
    (∀ start stop range, (ofText text.toList).range? start stop = some range ↔ start < stop ∧
      range.first.value = (ofText text.toList).lineOf start ∧ range.last.value = (ofText text.toList).lineOf stop) ∧
    (text.toList.count '\n' < 4294967296 →
      ∀ start stop, (ofText text.toList).range? start stop = none ↔ stop ≤ start) := by
  obtain ⟨t, rfl⟩ : ∃ t : Text, text = String.ofList t := ⟨text.toList, String.ofList_toList.symm⟩
  simp only [String.toList_ofList, lineOf_ofText, Text.toUTF8_ofList, Text.utf8ByteSize_ofList]
  refine ⟨t.lineOf_eq_count, fun _ _ => t.lineOf_mono, fun _ => Text.lineOf_of_le, fun _ _ => range?_eq_none_iff,
    fun _ _ _ => range?_eq_some_iff, fun hfew start stop => ?_⟩
  have := t.lineOf_le_count stop
  rw [range?_eq_none_iff]
  omega

/-- Between the two newlines of this text there is a character of three bytes, which the offset 3 lies in. -/
theorem LineIndex.counts_newlines_wide : "a\n図\n".toList.count '\n' < 4294967296 ∧
    (ofText "a\n図\n".toList).range? 3 6 = (LineRange.of ⟨1, by decide⟩ ⟨2, by decide⟩).toOption ∧
    (ofText "a\n図\n".toList).range? 6 3 = none := by
  obtain ⟨hlines, -, -, -, hsome, hnone⟩ := counts_newlines "a\n図\n"
  have hfew : "a\n図\n".toList.count '\n' < 4294967296 := by decide
  refine ⟨hfew, ?_, (hnone hfew 6 3).2 (by decide)⟩
  rw [LineRange.of, dif_pos (by decide)]
  refine (hsome 3 6 _).2 ⟨by decide, ?_, ?_⟩ <;> rw [hlines] <;> decide

end Marginalia
