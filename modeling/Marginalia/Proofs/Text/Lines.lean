import Marginalia.Text.Lines
import Marginalia.Proofs.Text.Occurrence
/-!
# Splitting into lines and joining them again

A text is its last line, or a line with its newline and more text behind: what holds of both holds of every text
(`lines_induction`).  `splitLines` takes back what `joinLines` does to lines without newlines (`splitLines_joinLines`).
A mark without a newline stands in joined lines only where it stands in one of them (`infix_joinLines`).  Text put
around a text lengthens its first and its last line and leaves the others as they are (`getElem?_splitLines_behind`,
`getElem?_splitLines_append`).  What changes every line by itself leaves as many lines (`count_newline_mapLines`).
-/
namespace Marginalia

namespace Text

/-! ## Line after line -/

@[elab_as_elim]
theorem lines_induction {motive : Text → Prop} (last : ∀ t, '\n' ∉ t → motive t)
    (line : ∀ line rest, '\n' ∉ line → motive rest → motive (line ++ '\n' :: rest)) (t : Text) : motive t := by
  by_cases hmem : '\n' ∈ t
  · obtain ⟨head, rest, ht, hhead⟩ := List.eq_append_cons_of_mem hmem
    have : rest.length < t.length := by
      rw [ht, List.length_append, List.length_cons]
      omega
    rw [ht]
    exact line head rest hhead (lines_induction last line rest)
  · exact last t hmem
termination_by t.length

/-- The text is empty, or its last line has its newline. -/
def EndsLine (t : Text) : Prop := ∀ c ∈ t.getLast?, c = '\n'

theorem EndsLine.suffix {s t : Text} (ht : EndsLine t) (hs : s <:+ t) : EndsLine s := by
  obtain ⟨p, rfl⟩ := hs
  intro c hc
  exact ht c (by rw [List.getLast?_append, Option.mem_def.1 hc]; rfl)

theorem EndsLine.eq_nil {t : Text} (ht : EndsLine t) (h : '\n' ∉ t) : t = [] := by
  rcases List.eq_nil_or_concat t with rfl | ⟨init, c, rfl⟩
  · rfl
  · obtain rfl := ht c (by simp)
    simp at h

theorem split_cons (separator c : Char) (t : Text) :
    split separator (c :: t) =
      if c = separator then [] :: split separator t
      else match split separator t with
        | [] => [[c]]
        | piece :: rest => (c :: piece) :: rest := rfl

theorem split_eq_splitOn (separator : Char) : ∀ t : Text, split separator t = t.splitOn separator
  | [] => (List.splitOn_nil separator).symm
  | c :: t => by
    have hne := List.splitOn_ne_nil separator t
    rw [split_cons, split_eq_splitOn separator t, List.splitOn_cons_eq_if_modifyHead]
    by_cases hc : c = separator
    · rw [if_pos hc, if_pos (beq_iff_eq.2 hc)]
    · rw [if_neg hc, if_neg (mt beq_iff_eq.1 hc)]
      cases hs : t.splitOn separator with
      | nil => exact absurd hs hne
      | cons piece rest => rfl

theorem split_append (separator : Char) (a b : Text) :
    split separator (a ++ separator :: b) = split separator a ++ split separator b := by
  simp only [split_eq_splitOn]
  exact List.splitOnP_append_cons a b BEq.rfl

theorem split_eq_singleton {separator : Char} {t : Text} (h : separator ∉ t) : split separator t = [t] := by
  rw [split_eq_splitOn, List.splitOn_eq_singleton h]

/-! ## Joined lines -/

@[simp] theorem joinLines_singleton (line : Text) : joinLines [line] = line := List.intercalate_singleton

theorem joinLines_cons {line : Text} {lines : List Text} (h : lines ≠ []) :
    joinLines (line :: lines) = line ++ '\n' :: joinLines lines := by
  rw [joinLines, List.intercalate_cons_of_ne_nil h, ← joinLines, List.append_assoc]
  rfl

theorem joinLines_append : ∀ {a b : List Text}, a ≠ [] → b ≠ [] → joinLines (a ++ b) = joinLines a ++ '\n' :: joinLines b
  | [line], b, _, hb => by rw [List.singleton_append, joinLines_cons hb, joinLines_singleton]
  | line :: next :: a, b, _, hb => by
    have ih := joinLines_append (a := next :: a) (List.cons_ne_nil _ _) hb
    rw [List.cons_append, joinLines_cons (by simp), ih, joinLines_cons (List.cons_ne_nil _ _), List.append_assoc,
      List.cons_append]

theorem joinLines_append_head (a line : Text) (lines : List Text) :
    joinLines ((a ++ line) :: lines) = a ++ joinLines (line :: lines) := by
  cases lines with
  | nil => simp
  | cons next lines =>
    rw [joinLines_cons (List.cons_ne_nil _ _), joinLines_cons (List.cons_ne_nil _ _), List.append_assoc]

theorem joinLines_append_last (lines : List Text) (line b : Text) :
    joinLines (lines ++ [line ++ b]) = joinLines (lines ++ [line]) ++ b := by
  by_cases h : lines = []
  · simp [h]
  · rw [joinLines_append h (by simp), joinLines_append h (by simp), joinLines_singleton, joinLines_singleton,
      List.append_assoc, List.cons_append]

/-- **Lines are read back from the text they are joined to.** -/
theorem splitLines_joinLines {lines : List Text} (hne : lines ≠ []) (h : ∀ line ∈ lines, '\n' ∉ line) :
    splitLines (joinLines lines) = lines := by
  rw [splitLines, split_eq_splitOn, joinLines, List.splitOn_intercalate '\n' h hne]

theorem count_newline_joinLines {lines : List Text} (hne : lines ≠ []) (h : ∀ line ∈ lines, '\n' ∉ line) :
    (joinLines lines).count '\n' = lines.length - 1 := by
  induction lines with
  | nil => exact absurd rfl hne
  | cons line lines ih =>
    have hline : line.count '\n' = 0 := List.count_eq_zero_of_not_mem (h line List.mem_cons_self)
    by_cases hl : lines = []
    · rw [hl, joinLines_singleton, hline, List.length_singleton]
    · have hpos := List.length_pos_iff.2 hl
      rw [joinLines_cons hl, List.count_append, hline, List.count_cons_self,
        ih hl fun l hin => h l (List.mem_cons_of_mem _ hin), List.length_cons]
      omega

theorem infix_joinLines_of_mem {line : Text} {lines : List Text} (h : line ∈ lines) : line <:+: joinLines lines := by
  obtain ⟨a, b, rfl⟩ := List.append_of_mem h
  cases b with
  | nil =>
    rw [← List.nil_append line, joinLines_append_last]
    exact (List.suffix_append _ _).isInfix
  | cons next b =>
    rw [← List.singleton_append, ← List.append_assoc, joinLines_append (by simp) (by simp), ← List.nil_append line,
      joinLines_append_last]
    exact ⟨joinLines (a ++ [[]]), _, rfl⟩

theorem infix_joinLines {mark : Text} (hne : mark ≠ []) (hn : '\n' ∉ mark) : ∀ {lines : List Text},
    mark <:+: joinLines lines → ∃ line ∈ lines, mark <:+: line
  | [], h => absurd (List.infix_nil.1 h) hne
  | [line], h => ⟨line, List.mem_cons_self, by rwa [joinLines_singleton] at h⟩
  | line :: next :: lines, h => by
    rw [joinLines_cons (by simp)] at h
    rcases infix_append_cons hn h with hline | hrest
    · exact ⟨line, List.mem_cons_self, hline⟩
    · obtain ⟨l, hl, hin⟩ := infix_joinLines hne hn hrest
      exact ⟨l, List.mem_cons_of_mem _ hl, hin⟩

theorem suffix_joinLines {below : Text} : ∀ {line : Text} {lines : List Text}, (∀ l ∈ line :: lines, '\n' ∉ l) →
    '\n' :: below <:+ joinLines (line :: lines) → ∃ l ∈ lines, l <+: below
  | line, [], h, hsuffix => by
    rw [joinLines_singleton] at hsuffix
    exact absurd (hsuffix.subset List.mem_cons_self) (h line List.mem_cons_self)
  | line, next :: lines, h, hsuffix => by
    have hnext : next <+: joinLines (next :: lines) := by
      have := joinLines_append_head next [] lines
      rw [List.append_nil] at this
      exact this ▸ List.prefix_append _ _
    obtain ⟨p, hp⟩ := hsuffix
    rw [joinLines_cons (List.cons_ne_nil _ _)] at hp
    rcases List.append_eq_append_iff.1 hp with ⟨m, rfl, hm⟩ | ⟨m, rfl, hm⟩
    · cases m with
      | nil => exact ⟨next, List.mem_cons_self, (List.cons.inj hm).2 ▸ hnext⟩
      | cons x m =>
        obtain ⟨rfl, -⟩ := List.cons.inj hm
        exact absurd (by simp) (h _ List.mem_cons_self)
    · cases m with
      | nil => exact ⟨next, List.mem_cons_self, (List.cons.inj hm).2 ▸ hnext⟩
      | cons x m =>
        have hrest : '\n' :: below <:+ joinLines (next :: lines) := ⟨m, (List.cons.inj hm).2.symm⟩
        obtain ⟨l, hl, hin⟩ := suffix_joinLines (fun l hl => h l (List.mem_cons_of_mem _ hl)) hrest
        exact ⟨l, List.mem_cons_of_mem _ hl, hin⟩

theorem getLast?_joinLines {lines : List Text} {line : Text} (hne : line ≠ []) :
    (joinLines (lines ++ [line])).getLast? = line.getLast? := by
  rw [← List.nil_append line, joinLines_append_last, List.getLast?_append, List.nil_append]
  cases h : line.getLast? with
  | none => exact absurd (List.getLast?_eq_none_iff.1 h) hne
  | some c => rfl

/-! ## The lines of a text -/

theorem splitLines_last {t : Text} (h : '\n' ∉ t) : splitLines t = [t] := split_eq_singleton h

theorem splitLines_line {line : Text} (h : '\n' ∉ line) (rest : Text) :
    splitLines (line ++ '\n' :: rest) = line :: splitLines rest := by
  rw [splitLines, split_append, ← splitLines, splitLines_last h, List.singleton_append, ← splitLines]

theorem length_splitLines (t : Text) : (splitLines t).length = t.count '\n' + 1 := by
  induction t using lines_induction with
  | last t h => rw [splitLines_last h, List.count_eq_zero_of_not_mem h, List.length_singleton]
  | line line rest hline ih =>
    rw [splitLines_line hline, List.length_cons, ih, List.count_append, List.count_eq_zero_of_not_mem hline,
      List.count_cons_self, Nat.zero_add]

theorem splitLines_ne_nil (t : Text) : splitLines t ≠ [] :=
  List.ne_nil_of_length_pos (by rw [length_splitLines]; exact Nat.succ_pos _)

theorem splitLines_append_newline (a b : Text) : splitLines (a ++ '\n' :: b) = splitLines a ++ splitLines b :=
  split_append '\n' a b

theorem newline_not_mem_splitLines {t : Text} : ∀ line ∈ splitLines t, '\n' ∉ line := by
  induction t using lines_induction with
  | last t h => simpa [splitLines_last h] using h
  | line line rest hline ih => simpa [splitLines_line hline] using ⟨hline, ih⟩

theorem joinLines_splitLines (t : Text) : joinLines (splitLines t) = t := by
  induction t using lines_induction with
  | last t h => rw [splitLines_last h, joinLines_singleton]
  | line line rest hline ih =>
    rw [splitLines_line hline, joinLines_cons (splitLines_ne_nil rest), ih]

/-- Text put behind can only lengthen the last line. -/
theorem getElem?_splitLines_append {a : Text} (b : Text) {i : Nat} {line : Text} (h : (splitLines a)[i]? = some line) :
    ∃ whole, (splitLines (a ++ b))[i]? = some whole ∧ line <+: whole := by
  induction a using lines_induction generalizing i with
  | last a ha =>
    rw [splitLines_last ha, List.getElem?_singleton] at h
    split at h
    · rename_i hi
      obtain rfl := Option.some.inj h
      rw [hi]
      induction b using lines_induction with
      | last b hb => exact ⟨_, by rw [splitLines_last (by simp [ha, hb])]; rfl, List.prefix_append _ _⟩
      | line head rest hhead _ =>
        refine ⟨a ++ head, ?_, List.prefix_append _ _⟩
        rw [← List.append_assoc, splitLines_line (by simp [ha, hhead])]
        rfl
    · cases h
  | line head rest hhead ih =>
    rw [splitLines_line hhead] at h
    rw [List.append_assoc, List.cons_append, splitLines_line hhead]
    cases i with
    | zero => exact ⟨line, h, List.prefix_refl _⟩
    | succ i => exact ih h

/-- Text put in front can only lengthen the first line. -/
theorem getElem?_splitLines_behind (a : Text) {b : Text} {i : Nat} {line : Text} (h : (splitLines b)[i]? = some line) :
    ∃ whole, (splitLines (a ++ b))[a.count '\n' + i]? = some whole ∧ line <:+ whole ∧ (1 ≤ i → whole = line) := by
  induction a using lines_induction with
  | last a ha =>
    rw [List.count_eq_zero_of_not_mem ha, Nat.zero_add]
    induction b using lines_induction with
    | last b hb =>
      rw [splitLines_last hb, List.getElem?_singleton] at h
      split at h
      · rename_i hi
        obtain rfl := Option.some.inj h
        refine ⟨a ++ b, ?_, List.suffix_append _ _, fun hpos => by omega⟩
        rw [splitLines_last (by simp [ha, hb]), hi]
        rfl
      · cases h
    | line head rest hhead _ =>
      rw [splitLines_line hhead] at h
      rw [← List.append_assoc, splitLines_line (by simp [ha, hhead])]
      cases i with
      | zero =>
        obtain rfl := Option.some.inj h
        exact ⟨a ++ head, rfl, List.suffix_append _ _, fun hpos => by omega⟩
      | succ i => exact ⟨line, h, List.suffix_refl _, fun _ => rfl⟩
  | line head rest hhead ih =>
    obtain ⟨whole, hwhole, hsuffix⟩ := ih
    refine ⟨whole, ?_, hsuffix⟩
    rw [List.append_assoc, List.cons_append, splitLines_line hhead, List.count_append, List.count_cons_self,
      List.count_eq_zero_of_not_mem hhead]
    have hindex : 0 + (List.count '\n' rest + 1) + i = List.count '\n' rest + i + 1 := by omega
    rw [hindex, List.getElem?_cons_succ]
    exact hwhole

/-! ## The same change to every line -/

/-- The text with each of its lines changed by `f`. -/
def mapLines (f : Text → Text) (t : Text) : Text := joinLines ((splitLines t).map f)

theorem mapLines_last (f : Text → Text) {t : Text} (h : '\n' ∉ t) : mapLines f t = f t := by
  rw [mapLines, splitLines_last h, List.map_singleton, joinLines_singleton]

theorem mapLines_line (f : Text → Text) {line : Text} (h : '\n' ∉ line) (rest : Text) :
    mapLines f (line ++ '\n' :: rest) = f line ++ '\n' :: mapLines f rest := by
  rw [mapLines, splitLines_line h, List.map_cons, joinLines_cons (by simp [splitLines_ne_nil]), mapLines]

theorem mapLines_eq_nil_iff {f : Text → Text} (hf : ∀ line, f line = [] ↔ line = []) {t : Text} :
    mapLines f t = [] ↔ t = [] := by
  induction t using lines_induction with
  | last t h => rw [mapLines_last f h, hf]
  | line line rest hline _ => simp [mapLines_line f hline]

section Map

variable {f : Text → Text} (hf : ∀ line, '\n' ∉ line → '\n' ∉ f line)
include hf

theorem splitLines_mapLines (t : Text) : splitLines (mapLines f t) = (splitLines t).map f := by
  refine splitLines_joinLines (by simp [splitLines_ne_nil]) fun line hline => ?_
  obtain ⟨l, hl, rfl⟩ := List.mem_map.1 hline
  exact hf l (newline_not_mem_splitLines l hl)

theorem count_newline_mapLines (t : Text) : (mapLines f t).count '\n' = t.count '\n' := by
  have hmap := length_splitLines (mapLines f t)
  rw [splitLines_mapLines hf, List.length_map, length_splitLines] at hmap
  omega

end Map

end Text

end Marginalia
