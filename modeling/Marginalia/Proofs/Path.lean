import Mathlib.Data.List.Lex
import Mathlib.Order.Lattice
import Marginalia.Path
import Marginalia.Proofs.Text.Occurrence
/-!
# The order of paths, and the names they end in

Paths are compared by their components, and components by lists of numbers.  So the order of paths is that of lists of
lists (`Path.le_iff`), in which two paths are level exactly if they have the same components (`Path.keys_eq_iff`).  A path
that is put together from names ends in the last of them, and that is the name of its file (`Path.EndsIn.fileName?`).
A path that leads on along names has those names behind its own components (`Path.components_descend`), and its extension
is what stands behind the last dot of the file's name (`Path.extension?_eq_some_iff`).
-/
namespace Marginalia

namespace Component

theorem key_injective : Function.Injective key := by
  intro a b h
  cases a with
  | name s =>
    cases b with
    | name t =>
      rw [(List.map_injective_iff.2 fun b c => UInt8.toNat_inj.1) (List.cons.inj h).2]
    | _ => cases h
  | _ => cases b <;> first | rfl | cases h

end Component

namespace Path

/-! ## Order -/

theorem lexLe_iff {α : Type} [LinearOrder α] [DecidableEq α] {le : α → α → Bool} (h : ∀ a b, le a b = true ↔ a ≤ b) :
    ∀ {s t : List α}, lexLe le s t = true ↔ s ≤ t
  | [], [] => by simp [lexLe]
  | [], b :: t => iff_of_true rfl (le_of_lt List.Lex.nil)
  | a :: s, [] => iff_of_false Bool.false_ne_true (not_le_of_gt List.Lex.nil)
  | a :: s, b :: t => by
    have hcons : a :: s ≤ b :: t ↔ a < b ∨ a = b ∧ s ≤ t := by
      rw [← not_lt, ← not_lt (b := s), List.cons_lt_cons_iff]
      grind
    rw [lexLe, hcons]
    split
    · rename_i hab
      rw [lexLe_iff h]
      simp [hab]
    · rename_i hab
      rw [h, le_iff_lt_or_eq]
      simp [hab]

/-- What a path is ordered by. -/
def keys (path : RawText) : List (List Nat) := (components path).map Component.key

/-- The paths have the same components, however they are spelled. -/
def Same (a b : RawText) : Prop := components a = components b

/-- The first components that differ are in order, or there are none and the second path goes on. -/
def Before (a b : RawText) : Prop := keys a < keys b

theorem keys_eq_iff {a b : RawText} : keys a = keys b ↔ Same a b :=
  (List.map_injective_iff.2 Component.key_injective).eq_iff

theorem le_iff {a b : RawText} : le a b = true ↔ keys a ≤ keys b :=
  lexLe_iff fun _ _ => lexLe_iff fun _ _ => iff_of_eq Nat.ble_eq

theorem le_trans (a b c : RawText) (hab : le a b = true) (hbc : le b c = true) : le a c = true :=
  le_iff.2 ((le_iff.1 hab).trans (le_iff.1 hbc))

theorem extension?_congr {a b : RawText} (h : Same a b) : extension? a = extension? b := by
  rw [extension?, extension?, fileName?, fileName?, h]

/-! ## Pieces -/

theorem pieces_append (path next : RawText) : pieces (path ++ slash :: next) = pieces path ++ pieces next :=
  List.splitOn_append_cons_self path next

theorem pieces_ne_nil (path : RawText) : pieces path ≠ [] := List.splitOn_ne_nil slash path

theorem pieces_eq_singleton {path : RawText} (h : slash ∉ path) : pieces path = [path] := List.splitOn_eq_singleton h

/-- The pieces of a path are what stands between its slashes. -/
theorem intercalate_pieces (path : RawText) : [slash].intercalate (pieces path) = path := List.intercalate_splitOn slash

/-! ## The last name -/

/-- The path ends in a name: it is the name, or the name follows a slash. -/
def EndsIn (path name : RawText) : Prop := path = name ∨ ∃ before, path = before ++ slash :: name

theorem EndsIn.prepend {path name : RawText} (h : EndsIn path name) (before : RawText) :
    EndsIn (before ++ slash :: path) name := by
  rcases h with rfl | ⟨between, rfl⟩
  · exact Or.inr ⟨before, rfl⟩
  · exact Or.inr ⟨before ++ slash :: between, by simp⟩

theorem EndsIn.join {next name : RawText} (h : EndsIn next name) (path : RawText) : EndsIn (join path next) name := by
  unfold Path.join
  split
  · exact h
  · split
    · rename_i hslash
      obtain ⟨before, rfl⟩ := List.getLast?_eq_some_iff.1 hslash
      rw [List.append_assoc]
      exact h.prepend before
    · exact h.prepend path

theorem endsIn_intercalate {name : RawText} : ∀ {names : List RawText}, names.getLast? = some name →
    EndsIn ([slash].intercalate names) name
  | [last], h => by
    obtain rfl := Option.some.inj h
    rw [List.intercalate_singleton]
    exact Or.inl rfl
  | first :: next :: names, h => by
    rw [List.getLast?_cons_cons] at h
    rw [List.intercalate_cons_cons, List.append_assoc]
    exact (endsIn_intercalate h).prepend first

theorem endsIn_descend {names : List RawText} {name : RawText} (h : names.getLast? = some name) (path : RawText) :
    EndsIn (descend path names) name := by
  rw [descend, if_neg]
  · exact (endsIn_intercalate h).join path
  · rintro hempty
    rw [List.isEmpty_iff.1 hempty] at h
    cases h

/-- Where a path ends in a name, that is the name of its file. -/
theorem EndsIn.fileName? {path name : RawText} (h : EndsIn path name) (hslash : slash ∉ name)
    (hname : component? name = some (.name name)) : fileName? path = some name := by
  have hpieces : pieces name = [name] := pieces_eq_singleton hslash
  have hne : name ≠ [] ∧ name ≠ [dot] := by
    unfold component? at hname
    split at hname
    · cases hname
    · rename_i h
      exact not_or.1 h
  obtain ⟨before, hbefore⟩ : ∃ before, pieces path = before ++ [name] := by
    rcases h with rfl | ⟨before, rfl⟩
    · exact ⟨[], hpieces⟩
    · exact ⟨pieces before, by rw [pieces_append, hpieces]⟩
  have hlast : (components path).getLast? = some (.name name) := by
    rw [components, hbefore]
    cases before with
    | nil =>
      dsimp only [List.nil_append]
      rw [if_neg hne.1, if_neg hne.2, hname]
      rfl
    | cons first rest =>
      dsimp only [List.cons_append]
      rw [List.filterMap_append, ← List.append_assoc, List.filterMap_cons, hname]
      exact List.getLast?_concat
  rw [Path.fileName?, hlast]

/-! ## Names behind a slash -/

/-- What follows a slash adds its components to those of the path before it. -/
theorem components_append {path : RawText} (h : path ≠ []) (next : RawText) :
    components (path ++ slash :: next) = components path ++ (pieces next).filterMap component? := by
  obtain ⟨first, rest, hpath⟩ := List.exists_cons_of_ne_nil (pieces_ne_nil path)
  have hrest : first = [] → rest ≠ [] := by
    rintro rfl rfl
    apply h
    rw [← intercalate_pieces path, hpath, List.intercalate_singleton]
  rw [components, components, pieces_append, hpath]
  dsimp only [List.cons_append]
  rw [List.filterMap_append, ← List.append_assoc]
  congr 2
  split
  · rename_i hfirst
    simp [hrest hfirst]
  · rfl

theorem components_top (next : RawText) : components (slash :: next) = .top :: (pieces next).filterMap component? := by
  have hpieces : pieces (slash :: next) = [] :: pieces next := pieces_append [] next
  rw [components, hpieces]
  dsimp only
  rw [if_pos rfl, if_neg (by simp [pieces_ne_nil])]
  rfl

/-- A name that can stand in a directory. -/
structure IsName (name : RawText) : Prop where
  no_slash : slash ∉ name
  component : component? name = some (.name name)

theorem pieces_intercalate {names : List RawText} (hne : names ≠ []) (h : ∀ name ∈ names, IsName name) :
    pieces ([slash].intercalate names) = names :=
  List.splitOn_intercalate slash (fun name hname => (h name hname).no_slash) hne

theorem filterMap_component? {names : List RawText} (h : ∀ name ∈ names, IsName name) :
    names.filterMap component? = names.map .name := by
  rw [List.filterMap_congr fun name hname => (h name hname).component]
  simp

/-- A path that is led on has the components of what it is led on by behind its own. -/
theorem components_join {path next : RawText} (hpath : path ≠ []) (hnext : next.head? ≠ some slash) :
    components (join path next) = components path ++ (pieces next).filterMap component? := by
  unfold join
  rw [if_neg (by simp [hpath, hnext])]
  split
  · rename_i hslash
    obtain ⟨before, rfl⟩ := List.getLast?_eq_some_iff.1 hslash
    have hempty : (pieces []).filterMap component? = [] := by decide
    rw [List.append_assoc, List.singleton_append]
    by_cases hne : before = []
    · have htop := components_top []
      rw [hempty] at htop
      rw [hne, List.nil_append, List.nil_append, components_top, htop]
      rfl
    · have hbefore := components_append hne []
      rw [hempty, List.append_nil] at hbefore
      rw [components_append hne, hbefore]
  · exact components_append hpath next

theorem IsName.ne_nil {name : RawText} (h : IsName name) : name ≠ [] := by
  rintro rfl
  exact absurd h.component (by decide)

theorem head?_intercalate_ne {names : List RawText} (h : ∀ name ∈ names, IsName name) :
    ([slash].intercalate names).head? ≠ some slash := by
  cases names with
  | nil => simp
  | cons name rest =>
    have hname := h name List.mem_cons_self
    obtain ⟨b, t, hb⟩ := List.exists_cons_of_ne_nil hname.ne_nil
    intro hslash
    apply hname.no_slash
    cases rest <;> simp_all

/-- **A path that descends along names has them as its last components.** -/
theorem components_descend {path : RawText} {names : List RawText} (hpath : path ≠ [])
    (h : ∀ name ∈ names, IsName name) : components (descend path names) = components path ++ names.map .name := by
  unfold descend
  split
  · rename_i hempty
    simp [List.isEmpty_iff.1 hempty]
  · rename_i hne
    rw [components_join hpath (head?_intercalate_ne h), pieces_intercalate (mt List.isEmpty_iff.2 hne) h,
      filterMap_component? h]

/-! ## Extensions -/

theorem extensionOfName?_of_not_mem {name : RawText} (h : dot ∉ name) : extensionOfName? name = none := by
  rw [extensionOfName?, List.splitOn_eq_singleton h]
  rfl

theorem extensionOfName?_append {stem ext : RawText} (h : dot ∉ ext) :
    extensionOfName? (stem ++ dot :: ext) = if stem = [] then none else some ext := by
  have hstem : stem = [] ↔ stem.splitOn dot = [[]] := by
    constructor
    · rintro rfl
      rfl
    · intro hsplit
      have hjoin : [dot].intercalate (stem.splitOn dot) = stem := List.intercalate_splitOn dot
      rw [hsplit] at hjoin
      exact hjoin.symm
  rw [extensionOfName?, List.splitOn_append_cons_self, List.splitOn_eq_singleton h, List.reverse_append]
  simp only [hstem]
  rcases List.eq_nil_or_concat (stem.splitOn dot) with hnil | ⟨more, before, hsplit⟩
  · exact absurd hnil (List.splitOn_ne_nil _ _)
  · rw [hsplit]
    simp [List.append_eq_singleton_iff]

/-- **The extension is what stands behind the last dot of the file's name**, if something stands before that dot. -/
theorem extension?_eq_some_iff {path ext : RawText} : extension? path = some ext ↔
    ∃ stem, stem ≠ [] ∧ dot ∉ ext ∧ fileName? path = some (stem ++ dot :: ext) := by
  unfold extension?
  constructor
  · intro h
    obtain ⟨name, hname, hext⟩ := Option.bind_eq_some_iff.1 h
    by_cases hdot : dot ∈ name
    · obtain ⟨stem, last, rfl, hlast⟩ := Text.exists_last hdot
      rw [extensionOfName?_append hlast] at hext
      split at hext
      · cases hext
      · rename_i hstem
        obtain rfl := Option.some.inj hext
        exact ⟨_, hstem, hlast, hname⟩
    · rw [extensionOfName?_of_not_mem hdot] at hext
      cases hext
  · rintro ⟨stem, hstem, hdot, hname⟩
    rw [hname, Option.bind_some, extensionOfName?_append hdot, if_neg hstem]

/-- What is no name behind a slash makes no difference to the name of the file. -/
theorem fileName?_append {path last : RawText} (hslash : slash ∉ last) (h : component? last = none) :
    fileName? (path ++ slash :: last) = fileName? path := by
  have hlast : (pieces last).filterMap component? = [] := by simp [pieces_eq_singleton hslash, h]
  unfold fileName?
  by_cases hpath : path = []
  · rw [hpath, List.nil_append, components_top, hlast]
    decide
  · rw [components_append hpath, hlast, List.append_nil]

end Path

end Marginalia
