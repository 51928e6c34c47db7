import Mathlib.Data.List.TakeWhile
import Marginalia.Comment.DocRun
import Marginalia.Proofs.Comment.Marker
import Marginalia.Proofs.Text.Lines
/-!
# Runs of documentation lines

A run is announced by a line above it, so it begins behind a newline (`afterMarkerLine?_suffix`).  A text in which no
documentation line follows a newline holds no run (`scan_eq_nil`).

Whether a line is one of documentation, and whether it announces a run, is decided by the line alone (`beginsLine_line`,
`afterMarkerLine?_line`).  So a run is read line by line (`run_line`), and one of whole lines ends where another kind of
line begins behind it (`run_append`).
-/
namespace Marginalia

namespace DocRun

theorem afterMarkerLine?_suffix {t below : Text} (h : afterMarkerLine? t = some below) : '\n' :: below <:+ t := by
  unfold afterMarkerLine? at h
  split at h
  · split at h
    · rename_i rest hrest
      split at h
      · rename_i hline
        obtain rfl := Option.some.inj h
        have hmark : rest <:+ t :=
          ((Marker.afterWord?_suffix hrest).trans (Marker.dropAt_suffix _)).trans
            ((List.dropWhile_suffix _).trans (List.drop_suffix _ _))
        rw [← hline]
        exact (List.dropWhile_suffix _).trans hmark
      · cases h
    · cases h
  · cases h

theorem run_isEmpty {t : Text} (h : beginsLine t = false) : (run t).1.isEmpty = true := by
  rw [run, linesFrom, if_neg (by simp [h])]
  rfl

theorem scanFrom_eq {t : Text} (h : ∀ below, '\n' :: below <:+ t → beginsLine below = false) (pos : Nat)
    (found : List Candidate) : scanFrom pos found t = found.reverse := by
  fun_induction scanFrom pos found t with
  | case1 => rfl
  | case2 pos found c t below hbelow hrun ih =>
    exact ih fun b hb => h b (hb.trans (List.suffix_cons c t))
  | case3 pos found c t below hbelow hrun =>
    have := run_isEmpty (h below (afterMarkerLine?_suffix hbelow))
    exact absurd this hrun
  | case4 pos found c t hnone ih =>
    exact ih fun b hb => h b (hb.trans (List.suffix_cons c t))

theorem scan_eq_nil {t : Text} (h : ∀ below, '\n' :: below <:+ t → beginsLine below = false) : scan t = [] := by
  rw [scan, scanFrom_eq h]
  rfl

theorem start_lt_stop_scanFrom {pos : Nat} {found : List Candidate} {t : Text} (hfound : ∀ c ∈ found, c.start < c.stop) :
    ∀ c ∈ scanFrom pos found t, c.start < c.stop := by
  fun_induction scanFrom pos found t with
  | case1 pos found => simpa using hfound
  | case2 pos found c t below h hrun ih => exact ih hfound
  | case3 pos found c t below h hrun _ line stop ih =>
    refine ih fun candidate hin => ?_
    rcases List.mem_cons.1 hin with rfl | hin
    · show pos < pos + Text.byteLength line + 1 + (run below).1.byteLength
      omega
    · exact hfound candidate hin
  | case4 pos found c t h ih => exact ih hfound

/-! ## Line by line -/

theorem dropWhile_append_cons {p : Char → Bool} {c : Char} (hp : p c = false) : ∀ (line rest : Text),
    (line ++ c :: rest).dropWhile p = line.dropWhile p ++ c :: rest
  | [], rest => by rw [List.nil_append, List.dropWhile_cons_of_neg (by simp [hp])]; rfl
  | x :: line, rest => by
    rw [List.cons_append, List.dropWhile_cons, List.dropWhile_cons, dropWhile_append_cons hp line rest]
    split <;> rfl

theorem isPrefixOf_append_cons {mark : Text} {c : Char} (h : c ∉ mark) (line rest : Text) :
    mark.isPrefixOf (line ++ c :: rest) = mark.isPrefixOf line := by
  rw [Bool.eq_iff_iff, List.isPrefixOf_iff_prefix, List.isPrefixOf_iff_prefix]
  exact Text.prefix_append_cons_iff h

theorem isGap_iff {c : Char} : isGap c = true ↔ c = ' ' ∨ c = '\t' := by
  simp [isGap]

theorem beginsLine_iff {t : Text} : beginsLine t = true ↔
    ∃ gap rest, (∀ c ∈ gap, c = ' ' ∨ c = '\t') ∧ t = gap ++ (sign ++ rest) := by
  rw [beginsLine, List.isPrefixOf_iff_prefix]
  constructor
  · rintro ⟨rest, hrest⟩
    refine ⟨t.takeWhile isGap, rest, fun c hc => isGap_iff.1 (List.mem_takeWhile_imp hc), ?_⟩
    rw [hrest, List.takeWhile_append_dropWhile]
  · rintro ⟨gap, rest, hgap, rfl⟩
    rw [List.dropWhile_append_of_pos fun c hc => isGap_iff.2 (hgap c hc)]
    exact List.prefix_append sign rest

theorem beginsLine_append_cons {c : Char} (hgap : isGap c = false) (hsign : c ∉ sign) (line rest : Text) :
    beginsLine (line ++ c :: rest) = beginsLine line := by
  rw [beginsLine, beginsLine, dropWhile_append_cons hgap, isPrefixOf_append_cons hsign]

theorem beginsLine_line (line rest : Text) : beginsLine (line ++ '\n' :: rest) = beginsLine line :=
  beginsLine_append_cons (by decide) (by decide) line rest

section Lines

variable {line : Text} (hline : '\n' ∉ line)
include hline

theorem ne_newline : ∀ c ∈ line, (c != '\n') = true :=
  fun _ hc => bne_iff_ne.2 (ne_of_mem_of_not_mem hc hline)

theorem takeWhile_line (rest : Text) : (line ++ '\n' :: rest).takeWhile (· != '\n') = line := by
  rw [List.takeWhile_append_of_pos (ne_newline hline), List.takeWhile_cons_of_neg (by simp), List.append_nil]

theorem linesFrom_line (found : List Text) (hbegins : beginsLine line = true) (rest : Text) :
    linesFrom found (line ++ '\n' :: rest) = linesFrom ((line ++ ['\n']) :: found) rest := by
  have hdrop : (line ++ '\n' :: rest).dropWhile (· != '\n') = '\n' :: rest := by
    rw [List.dropWhile_append_of_pos (ne_newline hline), List.dropWhile_cons_of_neg (by simp)]
  rw [linesFrom, if_pos (by rwa [beginsLine_line])]
  split
  · rename_i h
    rw [hdrop] at h
    cases h
  · rename_i newline rest' h
    obtain ⟨rfl, rfl⟩ := List.cons.inj (hdrop.symm.trans h)
    rw [takeWhile_line hline]

theorem linesFrom_last (found : List Text) (hbegins : beginsLine line = true) :
    linesFrom found line = ((line :: found).reverse, []) := by
  have hdrop : line.dropWhile (· != '\n') = [] := List.dropWhile_eq_nil_iff.2 (ne_newline hline)
  rw [linesFrom, if_pos hbegins]
  split
  · rfl
  · rename_i h
    rw [hdrop] at h
    cases h

end Lines

theorem linesFrom_not {t : Text} (h : beginsLine t = false) (found : List Text) : linesFrom found t = (found.reverse, t) := by
  rw [linesFrom, if_neg (by simp [h])]

theorem linesFrom_eq (found : List Text) (t : Text) :
    linesFrom found t = (found.reverse ++ (linesFrom [] t).1, (linesFrom [] t).2) := by
  induction t using Text.lines_induction generalizing found with
  | last t h =>
    cases hbegins : beginsLine t with
    | true =>
      rw [linesFrom_last h found hbegins, linesFrom_last h [] hbegins, List.reverse_cons]
      rfl
    | false => rw [linesFrom_not hbegins, linesFrom_not hbegins, List.reverse_nil, List.append_nil]
  | line line rest hline ih =>
    cases hbegins : beginsLine line with
    | true =>
      rw [linesFrom_line hline found hbegins, linesFrom_line hline [] hbegins, ih, ih [line ++ ['\n']]]
      simp only [List.reverse_cons, List.reverse_nil, List.nil_append, List.append_assoc]
    | false =>
      rw [linesFrom_not (by rwa [beginsLine_line]), linesFrom_not (by rwa [beginsLine_line]), List.reverse_nil,
        List.append_nil]

theorem run_not {t : Text} (h : beginsLine t = false) : run t = ([], t) := by
  rw [run, linesFrom_not h]
  rfl

theorem run_line {line : Text} (hline : '\n' ∉ line) (hbegins : beginsLine line = true) (rest : Text) :
    run (line ++ '\n' :: rest) = (line ++ '\n' :: (run rest).1, (run rest).2) := by
  rw [run, linesFrom_line hline [] hbegins, linesFrom_eq]
  simp [run]

theorem run_last {line : Text} (hline : '\n' ∉ line) (hbegins : beginsLine line = true) : run line = (line, []) := by
  rw [run, linesFrom_last hline [] hbegins]
  simp

/-- A text is put together again from the run and what follows it. -/
theorem run_parts (t : Text) : (run t).1 ++ (run t).2 = t := by
  induction t using Text.lines_induction with
  | last t h =>
    cases hbegins : beginsLine t with
    | true => rw [run_last h hbegins, List.append_nil]
    | false => rw [run_not hbegins, List.nil_append]
  | line line rest hline ih =>
    cases hbegins : beginsLine line with
    | true => rw [run_line hline hbegins, List.append_assoc, List.cons_append, ih]
    | false => rw [run_not (by rwa [beginsLine_line]), List.nil_append]

/-- **A run of whole lines ends where a line begins that is none of documentation.** -/
theorem run_append {t : Text} (ht : t.EndsLine) {b : Text} (hb : beginsLine b = false) :
    run (t ++ b) = ((run t).1, (run t).2 ++ b) := by
  induction t using Text.lines_induction with
  | last t h =>
    rw [ht.eq_nil h, List.nil_append, run_not hb, run_not (by decide)]
    rfl
  | line line rest hline ih =>
    rw [List.append_assoc, List.cons_append]
    cases hbegins : beginsLine line with
    | true =>
      have hrest : rest.EndsLine := ht.suffix ((List.suffix_cons _ _).trans (List.suffix_append _ _))
      rw [run_line hline hbegins, run_line hline hbegins, ih hrest]
    | false =>
      rw [run_not (by rwa [beginsLine_line]), run_not (by rwa [beginsLine_line]), List.append_assoc, List.cons_append]

theorem beginsLine_run (t : Text) : beginsLine (run t).2 = false := by
  induction t using Text.lines_induction with
  | last t h =>
    cases hbegins : beginsLine t with
    | true =>
      rw [run_last h hbegins]
      rfl
    | false => rwa [run_not hbegins]
  | line line rest hline ih =>
    cases hbegins : beginsLine line with
    | true => rwa [run_line hline hbegins]
    | false =>
      rw [← beginsLine_line line rest] at hbegins
      rwa [run_not hbegins]

/-- **A run is its documentation lines**, the last one with its newline unless the text ends there. -/
theorem run_lines {t raw after : Text} (h : run t = (raw, after)) (hne : raw ≠ []) :
    ∃ lines, lines ≠ [] ∧ (∀ line ∈ lines, '\n' ∉ line ∧ beginsLine line = true) ∧
      (raw = Text.joinLines lines ∧ after = [] ∨ raw = Text.joinLines lines ++ ['\n']) := by
  induction t using Text.lines_induction generalizing raw with
  | last t ht =>
    cases hbegins : beginsLine t with
    | true =>
      rw [run_last ht hbegins] at h
      obtain ⟨rfl, rfl⟩ := Prod.mk.inj h
      refine ⟨[t], List.cons_ne_nil _ _, ?_, Or.inl ⟨(Text.joinLines_singleton t).symm, rfl⟩⟩
      intro line hline
      rw [List.mem_singleton.1 hline]
      exact ⟨ht, hbegins⟩
    | false =>
      rw [run_not hbegins] at h
      exact absurd (Prod.mk.inj h).1.symm hne
  | line line rest hline ih =>
    cases hbegins : beginsLine line with
    | false =>
      rw [← beginsLine_line line rest] at hbegins
      rw [run_not hbegins] at h
      exact absurd (Prod.mk.inj h).1.symm hne
    | true =>
      rcases hrun : run rest with ⟨below, behind⟩
      rw [run_line hline hbegins, hrun] at h
      obtain ⟨rfl, rfl⟩ := Prod.mk.inj h
      by_cases hbelow : below = []
      · refine ⟨[line], List.cons_ne_nil _ _, ?_, Or.inr ?_⟩
        · intro l hl
          rw [List.mem_singleton.1 hl]
          exact ⟨hline, hbegins⟩
        · rw [hbelow, Text.joinLines_singleton]
      · obtain ⟨lines, hlines, hall, hraw⟩ := ih hrun hbelow
        refine ⟨line :: lines, List.cons_ne_nil _ _, ?_, ?_⟩
        · intro l hl
          rcases List.mem_cons.1 hl with rfl | hl
          · exact ⟨hline, hbegins⟩
          · exact hall l hl
        · rw [Text.joinLines_cons hlines]
          rcases hraw with ⟨hraw, hnil⟩ | hraw
          · exact Or.inl ⟨by rw [hraw], hnil⟩
          · exact Or.inr (by rw [hraw, List.append_assoc, List.cons_append])

/-! ## Marker lines -/

/-- Whether a line announces the documentation lines below it. -/
def isMarkerLine (line : Text) : Bool :=
  sign.isPrefixOf line &&
    (Marker.afterWord? (Marker.dropAt ((line.drop sign.length).dropWhile isGap))).any
      (·.all fun c => isGap c || c == '\r')

theorem length_le_of_isPrefixOf {mark t : Text} (h : mark.isPrefixOf t = true) : mark.length ≤ t.length :=
  (List.isPrefixOf_iff_prefix.1 h).length_le

theorem afterMarkerLine?_line {line : Text} (hline : '\n' ∉ line) (rest : Text) :
    afterMarkerLine? (line ++ '\n' :: rest) = if isMarkerLine line then some rest else none := by
  unfold afterMarkerLine? isMarkerLine
  rw [isPrefixOf_append_cons (by decide)]
  cases hsign : sign.isPrefixOf line with
  | false => rfl
  | true =>
    rw [List.drop_append_of_le_length (length_le_of_isPrefixOf hsign), dropWhile_append_cons (by decide),
      Marker.dropAt_append_blank (by decide), Marker.afterWord?_append_blank (by decide)]
    cases hword : Marker.afterWord? (Marker.dropAt ((line.drop sign.length).dropWhile isGap)) with
    | none => rfl
    | some tail =>
      have htail : '\n' ∉ tail := fun h => hline (((Marker.afterWord?_suffix hword).trans
        ((Marker.dropAt_suffix _).trans ((List.dropWhile_suffix _).trans (List.drop_suffix _ _)))).subset h)
      simp only [Option.map_some, if_true, Option.any_some, Bool.true_and]
      rw [dropWhile_append_cons (by decide)]
      cases hd : tail.dropWhile fun c => isGap c || c == '\r' with
      | nil =>
        have hall : tail.all (fun c => isGap c || c == '\r') = true :=
          List.all_eq_true.2 (List.dropWhile_eq_nil_iff.1 hd)
        rw [if_pos hall]
        rfl
      | cons c rest' =>
        have hall : ¬ tail.all (fun c => isGap c || c == '\r') = true := by
          intro h
          rw [List.all_eq_true, ← List.dropWhile_eq_nil_iff, hd] at h
          cases h
        have hc : c ≠ '\n' := by
          rintro rfl
          exact htail ((List.dropWhile_suffix _).subset (hd ▸ List.mem_cons_self))
        rw [if_neg hall]
        simp [hc]

end DocRun

end Marginalia
