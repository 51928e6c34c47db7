/-!
# Texts

A text is its list of characters, since every law about a text is an induction on
them.  Positions in a text are counted in UTF-8 bytes, as editors and files count
them, so a text also has a byte length.

Every function here that walks a whole text runs in constant stack: it is either a
loop with an accumulator or one of the library's list operations.
-/
namespace Marginalia

/-- A text, character by character. -/
abbrev Text := List Char

namespace Text

/-- How many bytes the text takes in UTF-8. -/
def byteLength (t : Text) : Nat :=
  t.foldl (fun n c => n + c.utf8Size) 0

@[simp] theorem byteLength_nil : byteLength [] = 0 := rfl

theorem foldl_utf8Size (t : Text) (n : Nat) :
    t.foldl (fun n c => n + c.utf8Size) n = n + byteLength t := by
  induction t generalizing n with
  | nil => rfl
  | cons c t ih =>
    rw [byteLength, List.foldl_cons, List.foldl_cons, ih, ih (0 + c.utf8Size)]
    omega

@[simp] theorem byteLength_cons (c : Char) (t : Text) :
    byteLength (c :: t) = c.utf8Size + byteLength t := by
  rw [byteLength, List.foldl_cons, foldl_utf8Size, Nat.zero_add]

@[simp] theorem byteLength_append (s t : Text) :
    byteLength (s ++ t) = byteLength s + byteLength t := by
  rw [byteLength, List.foldl_append, foldl_utf8Size]
  rfl

theorem length_le_byteLength (t : Text) : t.length ≤ byteLength t := by
  induction t with
  | nil => exact Nat.le_refl 0
  | cons c t ih =>
    have := c.utf8Size_pos
    simp only [List.length_cons, byteLength_cons]
    omega

/-- What follows the first `n` characters, if there are as many. -/
def pass? : Nat → Text → Option Text
  | 0, t => some t
  | _ + 1, [] => none
  | n + 1, _ :: t => pass? n t

theorem pass?_eq_some_iff : ∀ {n : Nat} {t rest : Text},
    pass? n t = some rest ↔ n ≤ t.length ∧ rest = t.drop n
  | 0, t, rest => by simp [pass?, eq_comm]
  | n + 1, [], rest => by simp [pass?]
  | n + 1, c :: t, rest => by simp [pass?, pass?_eq_some_iff]

def contains (piece : Text) : Text → Bool
  | [] => piece.isEmpty
  | c :: t => if piece.isPrefixOf (c :: t) then true else contains piece t

/-- The pieces between the characters `separator`, at least one. -/
def split (separator : Char) (t : Text) : List Text :=
  t.foldr (fun c pieces =>
    if c = separator then [] :: pieces
    else match pieces with
      | [] => [[c]]
      | piece :: rest => (c :: piece) :: rest) [[]]

/-- The search of `cut?`, with the part already passed in reverse. -/
def cutFrom (mark passed : Text) : Text → Option (Text × Text)
  | [] => if mark.isEmpty then some (passed.reverse, []) else none
  | c :: t =>
    if mark.isPrefixOf (c :: t) then some (passed.reverse, (c :: t).drop mark.length)
    else cutFrom mark (c :: passed) t

/-- The text before the first occurrence of `mark` and the text after it. -/
def cut? (mark t : Text) : Option (Text × Text) :=
  cutFrom mark [] t

theorem cutFrom_eq (mark : Text) : ∀ (passed t : Text),
    cutFrom mark passed t = (cut? mark t).map fun (before, rest) => (passed.reverse ++ before, rest)
  | passed, [] => by
    unfold cut? cutFrom
    split <;> simp
  | passed, c :: t => by
    unfold cut? cutFrom
    split
    · simp
    · rw [cutFrom_eq mark (c :: passed) t, cutFrom_eq mark [c] t, Option.map_map]
      simp [Function.comp_def]

theorem cut?_nil (mark : Text) : cut? mark [] = if mark.isEmpty then some ([], []) else none := rfl

theorem cut?_cons (mark : Text) (c : Char) (t : Text) :
    cut? mark (c :: t) =
      if mark.isPrefixOf (c :: t) then some ([], (c :: t).drop mark.length)
      else (cut? mark t).map fun (before, rest) => (c :: before, rest) := by
  rw [cut?, cutFrom]
  split
  · rfl
  · rw [cutFrom_eq]
    rfl

/-- A text is put together again from its parts and the mark between them. -/
theorem eq_of_cut? {mark : Text} : ∀ {t before rest : Text}, cut? mark t = some (before, rest) →
    t = before ++ (mark ++ rest)
  | [], before, rest, h => by
    rw [cut?_nil] at h
    split at h
    · obtain ⟨rfl, rfl⟩ := by simpa using h
      simp_all
    · simp at h
  | c :: t, before, rest, h => by
    rw [cut?_cons] at h
    split at h
    · rename_i hp
      obtain ⟨rfl, rfl⟩ := by simpa using h
      exact (List.prefix_iff_eq_append.1 (List.isPrefixOf_iff_prefix.1 hp)).symm
    · obtain ⟨⟨b, a⟩, hb, hba⟩ := Option.map_eq_some_iff.1 h
      obtain ⟨rfl, rfl⟩ := by simpa using hba
      rw [List.cons_append, ← eq_of_cut? hb]

/-- What follows the first occurrence of `mark` is no longer than the text it was found in. -/
theorem length_of_cut? {mark t before rest : Text} (h : cut? mark t = some (before, rest)) :
    rest.length ≤ t.length := by
  rw [eq_of_cut? h]
  simp only [List.length_append]
  omega

end Text

end Marginalia
