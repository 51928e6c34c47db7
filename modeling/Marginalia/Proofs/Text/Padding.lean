import Marginalia.Proofs.Text.Blank
import Marginalia.Proofs.Text.Lines
/-!
# White space around newlines

A padding is white space to put before and behind every newline of a text: a carriage return before it is the case
`crlf`, and white space behind it alone begins the next line (`Padding.behind`).  The newlines stay as many as they were
(`count_newline_pad`), and a mark without white space stands in the padded text just where it stood in the text
(`isPrefixOf_pad`, `cut?_pad`).  Where white space is skipped, the padding goes with it (`dropWhile_pad`, `trimStart_pad`).
-/
namespace Marginalia

/-- White space to put around newlines, without a newline itself. -/
structure Padding where
  before : Text
  after : Text
  before_gap : ∀ c ∈ before, isBlank c = true ∧ c ≠ '\n'
  after_gap : ∀ c ∈ after, isBlank c = true ∧ c ≠ '\n'

namespace Text

def pad (gap : Padding) (t : Text) : Text :=
  t.flatMap fun c => if c = '\n' then gap.before ++ '\n' :: gap.after else [c]

/-- The text with a carriage return before every newline. -/
def crlf (t : Text) : Text := t.flatMap fun c => if c = '\n' then ['\r', '\n'] else [c]

end Text

def Padding.carriageReturn : Padding := ⟨['\r'], [], List.forall_mem_singleton.2 (by decide), List.forall_mem_nil _⟩

def Padding.behind (w : Text) (hw : ∀ c ∈ w, isBlank c = true ∧ c ≠ '\n') : Padding := ⟨[], w, List.forall_mem_nil _, hw⟩

namespace Text

variable (gap : Padding)

theorem crlf_eq_pad (t : Text) : crlf t = pad .carriageReturn t := rfl

@[simp] theorem pad_nil : pad gap [] = [] := rfl

@[simp] theorem pad_append (s t : Text) : pad gap (s ++ t) = pad gap s ++ pad gap t := List.flatMap_append

@[simp] theorem pad_newline (t : Text) : pad gap ('\n' :: t) = gap.before ++ '\n' :: (gap.after ++ pad gap t) := by
  rw [pad, List.flatMap_cons, if_pos rfl, List.append_assoc]
  rfl

theorem pad_cons {c : Char} (hc : c ≠ '\n') (t : Text) : pad gap (c :: t) = c :: pad gap t := by
  rw [pad, List.flatMap_cons, if_neg hc]
  rfl

theorem pad_eq_self {t : Text} (h : '\n' ∉ t) : pad gap t = t := by
  induction t with
  | nil => rfl
  | cons c t ih =>
    rw [List.mem_cons, not_or] at h
    rw [pad_cons gap (Ne.symm h.1), ih h.2]

theorem pad_line {line : Text} (h : '\n' ∉ line) (rest : Text) :
    pad gap (line ++ '\n' :: rest) = line ++ (gap.before ++ '\n' :: (gap.after ++ pad gap rest)) := by
  rw [pad_append, pad_eq_self gap h, pad_newline]

theorem pad_eq_nil_iff {t : Text} : pad gap t = [] ↔ t = [] := by
  cases t with
  | nil => simp
  | cons c t => by_cases hc : c = '\n' <;> simp [hc, pad_cons]

theorem length_le_length_pad (t : Text) : t.length ≤ (pad gap t).length := by
  induction t with
  | nil => exact Nat.le_refl 0
  | cons c t ih =>
    by_cases hc : c = '\n'
    · simp only [hc, pad_newline, List.length_append, List.length_cons]
      omega
    · simp only [pad_cons gap hc, List.length_cons]
      omega

/-- **Padding leaves the lines of a text as many as they were.** -/
theorem count_newline_pad (t : Text) : (pad gap t).count '\n' = t.count '\n' := by
  have hbefore : gap.before.count '\n' = 0 := List.count_eq_zero_of_not_mem fun h => (gap.before_gap _ h).2 rfl
  have hafter : gap.after.count '\n' = 0 := List.count_eq_zero_of_not_mem fun h => (gap.after_gap _ h).2 rfl
  induction t with
  | nil => rfl
  | cons c t ih =>
    by_cases hc : c = '\n'
    · rw [hc, pad_newline, List.count_append, hbefore, List.count_cons_self, List.count_append, hafter, ih,
        List.count_cons_self, Nat.zero_add, Nat.zero_add]
    · rw [pad_cons gap hc, List.count_cons_of_ne hc, List.count_cons_of_ne hc, ih]

theorem dropWhile_pad {p : Char → Bool} (hp : ∀ c, isBlank c = true → p c = true) (t : Text) :
    (pad gap t).dropWhile p = pad gap (t.dropWhile p) := by
  induction t with
  | nil => rfl
  | cons c t ih =>
    by_cases hc : c = '\n'
    · have hnewline : p '\n' = true := hp '\n' (by decide)
      rw [hc, pad_newline, List.dropWhile_append_of_pos fun x hx => hp x (gap.before_gap x hx).1,
        List.dropWhile_cons_of_pos hnewline, List.dropWhile_append_of_pos fun x hx => hp x (gap.after_gap x hx).1, ih,
        List.dropWhile_cons_of_pos hnewline]
    · rw [pad_cons gap hc, List.dropWhile_cons, List.dropWhile_cons, ih]
      split
      · rfl
      · rw [pad_cons gap hc]

theorem trimStart_pad (t : Text) : trimStart (pad gap t) = pad gap (trimStart t) := dropWhile_pad gap (fun _ h => h) t

/-- Where a line of a padded text ends, white space begins. -/
theorem exists_pad_newline (t : Text) : ∃ c rest, isBlank c = true ∧ pad gap ('\n' :: t) = c :: rest := by
  rw [pad_newline]
  cases hbefore : gap.before with
  | nil => exact ⟨_, _, rfl, rfl⟩
  | cons c rest => exact ⟨c, _, (gap.before_gap c (hbefore ▸ List.mem_cons_self)).1, rfl⟩

/-! ## Marks -/

theorem isPrefixOf_pad {mark : Text} (hmark : ∀ m ∈ mark, isBlank m = false) (t : Text) :
    mark.isPrefixOf (pad gap t) = mark.isPrefixOf t := by
  by_cases hmem : '\n' ∈ t
  · obtain ⟨line, rest, rfl, hline⟩ := List.eq_append_cons_of_mem hmem
    obtain ⟨c, rest', hc, hpad⟩ := exists_pad_newline gap rest
    rw [pad_append, pad_eq_self gap hline, hpad, Bool.eq_iff_iff, List.isPrefixOf_iff_prefix, List.isPrefixOf_iff_prefix,
      prefix_append_cons_iff (not_mem_of_isBlank hmark hc),
      prefix_append_cons_iff (not_mem_of_isBlank hmark (by decide : isBlank '\n' = true))]
  · rw [pad_eq_self gap hmem]

/-- **The first occurrence of a mark stays the first**, with the text on both sides padded. -/
theorem cut?_pad {mark : Text} (hne : mark ≠ []) (hmark : ∀ m ∈ mark, isBlank m = false) (t : Text) :
    cut? mark (pad gap t) = (cut? mark t).map fun p => (pad gap p.1, pad gap p.2) := by
  have hnewline : '\n' ∉ mark := not_mem_of_isBlank hmark (by decide)
  induction t with
  | nil =>
    rw [pad_nil, cut?_nil, if_neg (by simpa using hne)]
    rfl
  | cons c t ih =>
    by_cases hc : c = '\n'
    · -- the mark begins neither in the padding nor with the newline
      have hbefore : ∀ x ∈ gap.before, x ∉ mark := fun x hx => not_mem_of_isBlank hmark (gap.before_gap x hx).1
      have hafter : ∀ x ∈ '\n' :: gap.after, x ∉ mark := List.forall_mem_cons.2
        ⟨hnewline, fun x hx => not_mem_of_isBlank hmark (gap.after_gap x hx).1⟩
      have hpad : pad gap ('\n' :: t) = gap.before ++ ('\n' :: gap.after ++ pad gap t) := pad_newline gap t
      have hone : cut? mark ('\n' :: t) = (cut? mark t).map fun p => (['\n'] ++ p.1, p.2) :=
        cut?_append_of_not_mem hne (List.forall_mem_singleton.2 hnewline) t
      rw [hc, hpad, cut?_append_of_not_mem hne hbefore, cut?_append_of_not_mem hne hafter, ih, hone]
      simp only [Option.map_map, Function.comp_def, pad_newline, List.cons_append, List.nil_append]
    · rw [pad_cons gap hc, cut?_cons, cut?_cons, ih, ← pad_cons gap hc, isPrefixOf_pad gap hmark]
      split
      · rename_i hopen
        obtain ⟨rest, hrest⟩ := List.isPrefixOf_iff_prefix.1 hopen
        rw [← hrest, pad_append, pad_eq_self gap hnewline, List.drop_left, List.drop_left]
        rfl
      · simp only [Option.map_map, Function.comp_def, pad_cons gap hc]

end Text

end Marginalia
