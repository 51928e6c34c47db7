import Mathlib.Data.List.Forall2
import Mathlib.Order.Bounds.Defs
import Marginalia.Proofs.Text.Indentation
/-!
# Lines without their common indentation

Indentation is counted in characters, and texts are cut at byte offsets.  The two meet in `dedentAt?`, which looks up
the offset of the first character that is kept and cuts there; no cut falls inside a character, however wide the white
space is, and it gives the lines that `dedent` gives (`dedentAt?_eq`).

What is taken off a line that is not blank is white space, and from each of them equally much, so the lines stay where
they were against each other (`dedent_keeps_relative`).  A line that had no more indentation than the others share is then at the
margin (`exists_flush_dedent`), hence nothing is left to take off; and white space put before every line is shared by all
of them (`dedent_map_append`).
-/
namespace Marginalia

namespace Text

/-! ## By byte offsets -/

/-- The offset of the character that has `n` others before it. -/
def offsetAt? : (n : Nat) → Text → Option Nat
  | _, [] => none
  | 0, _ :: _ => some 0
  | n + 1, c :: t => (offsetAt? n t).map (c.utf8Size + ·)

/-- The text from an offset on; none if the offset lies behind the text or inside a character. -/
def from? : (offset : Nat) → Text → Option Text
  | 0, t => some t
  | _ + 1, [] => none
  | n + 1, c :: t => if c.utf8Size ≤ n + 1 then from? (n + 1 - c.utf8Size) t else none

/-- The lines without their common indentation, each cut at the offset of its first character that is kept.  A line
that is not longer than the indentation becomes empty.  There are no lines if a cut fails. -/
def dedentAt? (lines : List Text) : Option (List Text) :=
  let depth := commonIndentation lines
  if 0 < depth then
    lines.mapM fun line =>
      match offsetAt? depth line with
      | some offset => from? offset line
      | none => some []
  else some lines

theorem from?_byteLength : ∀ before rest : Text, from? (byteLength before) (before ++ rest) = some rest
  | [], rest => by
    rw [byteLength_nil, from?]
    rfl
  | c :: before, rest => by
    obtain ⟨n, hn⟩ : ∃ n, c.utf8Size = n + 1 := Nat.exists_eq_succ_of_ne_zero (Nat.ne_of_gt c.utf8Size_pos)
    have hsize : byteLength (c :: before) = n + byteLength before + 1 := by
      rw [byteLength_cons, hn]
      omega
    rw [hsize, List.cons_append, from?, hn, if_pos (by omega), Nat.add_sub_add_right, Nat.add_sub_cancel_left]
    exact from?_byteLength before rest

theorem offsetAt?_of_lt : ∀ {n : Nat} {t : Text}, n < t.length → offsetAt? n t = some (byteLength (t.take n))
  | 0, _ :: _, _ => rfl
  | n + 1, c :: t, h => by
    rw [offsetAt?, offsetAt?_of_lt (Nat.lt_of_succ_lt_succ h), List.take_succ_cons, byteLength_cons]
    rfl

theorem offsetAt?_of_le : ∀ {n : Nat} {t : Text}, t.length ≤ n → offsetAt? n t = none
  | 0, [], _ => rfl
  | _ + 1, [], _ => rfl
  | n + 1, c :: t, h => by
    rw [offsetAt?, offsetAt?_of_le (Nat.le_of_succ_le_succ h)]
    rfl

/-- **No cut falls inside a character**, and cutting at offsets drops characters. -/
theorem dedentAt?_eq (lines : List Text) : dedentAt? lines = some (dedent lines) := by
  unfold dedentAt? dedent
  by_cases hdepth : 0 < commonIndentation lines
  · have hcut : ∀ line : Text, (match offsetAt? (commonIndentation lines) line with
        | some offset => from? offset line
        | none => some []) = some (line.drop (commonIndentation lines)) := by
      intro line
      by_cases hlong : commonIndentation lines < line.length
      · rw [offsetAt?_of_lt hlong]
        have := from?_byteLength (line.take (commonIndentation lines)) (line.drop (commonIndentation lines))
        rwa [List.take_append_drop] at this
      · have hshort : line.length ≤ commonIndentation lines := Nat.le_of_not_lt hlong
        rw [offsetAt?_of_le hshort, List.drop_eq_nil_of_le hshort]
    simp only [if_pos hdepth, hcut]
    exact List.mapM_pure
  · rw [if_neg hdepth, Nat.eq_zero_of_not_pos hdepth]
    exact congrArg some (List.map_id' lines).symm

/-! ## What is taken off -/

/-- The number of blank characters that the lines share: the least that a line which is not blank begins with, and zero
if there is none. -/
def IsDepth (lines : List Text) (depth : Nat) : Prop :=
  IsLeast {n | ∃ line ∈ lines, line.isAllBlank = false ∧ indentation line = n} depth ∨
    (∀ line ∈ lines, line.isAllBlank = true) ∧ depth = 0

theorem commonIndentation_of_blank {lines : List Text} (h : ∀ line ∈ lines, line.isAllBlank = true) :
    commonIndentation lines = 0 := by
  have hnone : (lines.filter fun line => !line.isAllBlank) = [] := by simpa using h
  rw [commonIndentation, hnone]
  rfl

theorem isDepth_commonIndentation (lines : List Text) : IsDepth lines (commonIndentation lines) := by
  by_cases hsome : ∃ line ∈ lines, line.isAllBlank = false
  · refine Or.inl ⟨exists_indentation_eq hsome, ?_⟩
    rintro n ⟨line, hin, hline, rfl⟩
    exact commonIndentation_le hin hline
  · have hall : ∀ line ∈ lines, line.isAllBlank = true := by simpa using hsome
    exact Or.inr ⟨hall, commonIndentation_of_blank hall⟩

theorem drop_indentation (line : Text) : line.drop (indentation line) = trimStart line := by
  have hsplit : indentation line = (line.takeWhile isBlank).length := rfl
  conv => lhs; arg 2; rw [← List.takeWhile_append_dropWhile (p := isBlank) (l := line)]
  rw [hsplit, List.drop_left, trimStart]

/-- **Some line is then at the margin.** -/
theorem exists_flush_dedent {lines : List Text} (hsome : ∃ line ∈ lines, line.isAllBlank = false) :
    ∃ c rest, c :: rest ∈ dedent lines ∧ isBlank c = false := by
  obtain ⟨line, hin, hline, hleast⟩ := exists_indentation_eq hsome
  have hkept : trimStart line ∈ dedent lines := by
    rw [← drop_indentation, hleast]
    exact List.mem_map_of_mem hin
  have hflush := head?_trimStart line
  cases hstart : trimStart line with
  | nil =>
    rw [← isAllBlank_trimStart, hstart] at hline
    cases hline
  | cons c rest =>
    rw [hstart] at hkept hflush
    exact ⟨c, rest, hkept, hflush⟩

/-- **Nothing is left to take off.** -/
theorem dedent_dedent (lines : List Text) : dedent (dedent lines) = dedent lines := by
  by_cases hsome : ∃ line ∈ lines, line.isAllBlank = false
  · obtain ⟨c, rest, hin, hc⟩ := exists_flush_dedent hsome
    exact dedent_eq_self (commonIndentation_eq_zero hin hc)
  · have hall : ∀ line ∈ lines, line.isAllBlank = true := by simpa using hsome
    have hself : dedent lines = lines := dedent_eq_self (commonIndentation_of_blank hall)
    rw [hself, hself]

/-- **White space before every line comes off with the common indentation.** -/
theorem dedent_map_append {lines : List Text} (hsome : ∃ line ∈ lines, line.isAllBlank = false) {w : Text}
    (hw : ∀ c ∈ w, isBlank c = true) : dedent (lines.map (w ++ ·)) = dedent lines := by
  have hdepth : commonIndentation (lines.map (w ++ ·)) = w.length + commonIndentation lines :=
    commonIndentation_map hsome (fun line _ => isAllBlank_append hw line) fun line _ _ => indentation_append hw line
  rw [dedent, dedent, hdepth, List.map_map]
  exact List.map_congr_left fun line _ => List.drop_length_add_append _

/-- How a line is kept without the indentation that it shares with others: white space is taken off its start, as much
as they share, or all of a blank line that is not as long.  What it has more than they share is left to it. -/
def Sheds (depth : Nat) (line kept : Text) : Prop :=
  (∃ gap, line = gap ++ kept ∧ (∀ c ∈ gap, isBlank c = true) ∧
    gap.length = if line.isAllBlank then min depth line.length else depth) ∧
  (line.isAllBlank = false → indentation line = depth + indentation kept)

theorem sheds_dedent (lines : List Text) : List.Forall₂ (Sheds (commonIndentation lines)) lines (dedent lines) := by
  rw [dedent, List.forall₂_map_right_iff, List.forall₂_same]
  intro line hin
  have hline : line = line.take (commonIndentation lines) ++ line.drop (commonIndentation lines) :=
    (List.take_append_drop _ _).symm
  cases hblank : line.isAllBlank with
  | true =>
    have hgap : ∀ c ∈ line.take (commonIndentation lines), isBlank c = true := fun c hc =>
      List.all_eq_true.1 hblank c (List.mem_of_mem_take hc)
    exact ⟨⟨_, hline, hgap, by rw [hblank, if_pos rfl, List.length_take]⟩, fun h => by rw [hblank] at h; cases h⟩
  | false =>
    have hgap := isBlank_take (commonIndentation_le hin hblank)
    have hlength : (line.take (commonIndentation lines)).length = commonIndentation lines := by
      have hle := commonIndentation_le hin hblank
      have hlt := indentation_lt_length hblank
      rw [List.length_take]
      omega
    refine ⟨⟨_, hline, hgap, by rw [hlength, hblank]; rfl⟩, fun _ => ?_⟩
    conv => lhs; rw [hline]
    rw [indentation_append hgap, hlength]

/-- **Taking the common indentation off lines takes off white space only, and moves them all equally.**  The cuts are
made at byte offsets, and none fails.  Of each line the same number of characters is taken, the least number of blank
ones that a line begins with which is not blank, and all of them are blank; a blank line may have less to give.  Then
some line is at the margin, nothing is left to take off, and white space before every line would have made no
difference, unless all lines are blank. -/
theorem dedent_keeps_relative (lines : List Text) : ∃ depth, IsDepth lines depth ∧
    dedentAt? lines = some (dedent lines) ∧ (dedent lines).length = lines.length ∧
    List.Forall₂ (Sheds depth) lines (dedent lines) ∧ dedent (dedent lines) = dedent lines ∧
    ((∃ line ∈ lines, line.isAllBlank = false) →
      (∃ c rest, c :: rest ∈ dedent lines ∧ isBlank c = false) ∧
      ∀ w : Text, (∀ c ∈ w, isBlank c = true) → dedent (lines.map (w ++ ·)) = dedent lines) := by
  refine ⟨commonIndentation lines, isDepth_commonIndentation lines, dedentAt?_eq lines, List.length_map _,
    sheds_dedent lines, dedent_dedent lines, fun hsome => ⟨exists_flush_dedent hsome, fun w hw => ?_⟩⟩
  exact dedent_map_append hsome hw

/-- White space of one and three bytes, and a blank line that is shorter than the indentation. -/
example : dedentAt? (["\u3000\u3000図", "\t", " \u3000  A"].map String.toList) = some (["図", "", "  A"].map String.toList) := by
  decide

end Text

end Marginalia
