import Mathlib.Data.List.Basic
import Marginalia.FileTree
import Marginalia.Proofs.Path
/-!
# Trees with one file replaced

A path leads through a tree by its components (`FileTree.locate?_eq`), and where it leads does not depend on what is in
the files.  So a tree in which one file has another content has the same places, and all other files read as before.
-/
namespace Marginalia

open Marginalia.Path (components component?)

/-- The place that one step leads to. -/
def Component.follow (place : Place) : Component → Place
  | top => []
  | here => place
  | up => place.dropLast
  | name s => place ++ [s]

/-- A path begins with a slash exactly if its first piece is empty. -/
theorem Path.pieces_cases {path : RawText} (h : path ≠ []) :
    (path.head? = some slash ∧ ∃ rest, rest ≠ [] ∧ pieces path = [] :: rest) ∨
    (path.head? ≠ some slash ∧ ∃ first rest, first ≠ [] ∧ pieces path = first :: rest) := by
  obtain ⟨b, t, rfl⟩ := List.exists_cons_of_ne_nil h
  have hne := List.splitOn_ne_nil slash t
  unfold pieces
  rw [List.splitOn_cons_eq_if_modifyHead]
  by_cases hb : b = slash
  · rw [if_pos (beq_iff_eq.2 hb), hb]
    exact Or.inl ⟨rfl, _, hne, rfl⟩
  · rw [if_neg (mt beq_iff_eq.1 hb)]
    obtain ⟨piece, rest, hsplit⟩ := List.exists_cons_of_ne_nil hne
    rw [hsplit]
    exact Or.inr ⟨mt Option.some.inj hb, b :: piece, rest, List.cons_ne_nil _ _, rfl⟩

namespace FileTree

/-! ## Where paths lead -/

theorem follow?_eq {tree : FileTree} : ∀ {pieces : List RawText} {place place' : Place},
    tree.follow? pieces place = some place' → place' = (pieces.filterMap component?).foldl Component.follow place
  | [], place, place', h => (Option.some.inj h).symm
  | piece :: pieces, place, place', h => by
    rw [follow?] at h
    split at h
    · rw [List.filterMap_cons, component?]
      split at h
      · rename_i hstay
        rw [if_pos hstay]
        exact follow?_eq h
      · rename_i hstay
        rw [if_neg hstay]
        split at h
        · rename_i hup
          rw [if_pos hup]
          exact follow?_eq h
        · rename_i hup
          rw [if_neg hup]
          dsimp only at h
          split at h
          · exact follow?_eq h
          · cases h
    · cases h

/-- **A path leads along its components.** -/
theorem locate?_eq {tree : FileTree} {base place : Place} {path : RawText} (h : tree.locate? base path = some place) :
    place = (components path).foldl Component.follow base := by
  unfold locate? at h
  split at h
  · cases h
  · rename_i hne
    have hplace := follow?_eq h
    rcases Path.pieces_cases hne with ⟨hslash, rest, hrest, hpieces⟩ | ⟨hslash, first, rest, hfirst, hpieces⟩
    · rw [hpieces, if_pos hslash] at hplace
      rw [components, hpieces]
      dsimp only
      rw [if_pos rfl, if_neg (mt List.isEmpty_iff.1 hrest)]
      exact hplace
    · rw [hpieces, if_neg hslash, List.filterMap_cons] at hplace
      rw [components, hpieces]
      dsimp only
      rw [if_neg hfirst]
      split
      · rename_i hhere
        rw [hhere] at hplace
        exact hplace
      · cases hcomponent : component? first with
        | none =>
          rw [hcomponent] at hplace
          exact hplace
        | some c =>
          rw [hcomponent] at hplace
          exact hplace

/-- A path that ends in a name leads to a place with that name. -/
theorem getLast?_of_locate? {tree : FileTree} {base place : Place} {path name : RawText}
    (h : tree.locate? base path = some place) (hname : Path.fileName? path = some name) :
    place.getLast? = some name := by
  rw [locate?_eq h]
  unfold Path.fileName? at hname
  split at hname
  · rename_i s hlast
    obtain rfl := Option.some.inj hname
    obtain ⟨before, hbefore⟩ := List.getLast?_eq_some_iff.1 hlast
    rw [hbefore, List.foldl_append]
    exact List.getLast?_concat
  · cases hname

/-! ## Another content -/

/-- The tree in which the file at a place has another content. -/
def replace (tree : FileTree) (place : Place) (content : ByteArray) : FileTree :=
  { tree with files := tree.files.map fun (file, old) => (file, if file = place then content else old) }

section Replace

variable (tree : FileTree) {place : Place} (content : ByteArray)

/-- What is made from the files alone stays the same, if it does so for the file that is replaced. -/
theorem filterMap_replace {β : Type} {f : Place × ByteArray → Option β}
    (h : ∀ old, f (place, content) = f (place, old)) :
    (tree.replace place content).files.filterMap f = tree.files.filterMap f := by
  rw [replace, List.filterMap_map]
  refine List.filterMap_congr fun entry _ => ?_
  obtain ⟨file, old⟩ := entry
  dsimp only [Function.comp_apply]
  split
  · rename_i hfile
    rw [hfile, h old]
  · rfl

theorem file?_replace (other : Place) : (tree.replace place content).file? other =
    (tree.file? other).map fun old => if other = place then content else old := by
  have hfind : (tree.replace place content).files.find? (fun entry => entry.1 == other) =
      (tree.files.find? (fun entry => entry.1 == other)).map fun (file, old) =>
        (file, if file = place then content else old) := List.find?_map
  rw [file?, file?, hfind]
  cases hentry : tree.files.find? (fun entry => entry.1 == other) with
  | none => rfl
  | some entry =>
    have hplace : entry.1 = other := by simpa using List.find?_some hentry
    simp only [Option.map_some, hplace]

theorem file?_replace_of_ne {other : Place} (h : other ≠ place) :
    (tree.replace place content).file? other = tree.file? other := by
  rw [file?_replace]
  simp only [if_neg h]
  exact Option.map_id'

theorem isDirectory_replace (other : Place) :
    (tree.replace place content).isDirectory other = tree.isDirectory other := by
  unfold isDirectory replace
  rw [List.any_map]
  rfl

theorem isSome_file?_replace (other : Place) :
    ((tree.replace place content).file? other).isSome = (tree.file? other).isSome := by
  rw [file?_replace, Option.isSome_map]

theorem follow?_replace : ∀ (pieces : List RawText) (start : Place),
    (tree.replace place content).follow? pieces start = tree.follow? pieces start
  | [], _ => rfl
  | piece :: pieces, start => by
    rw [follow?, follow?]
    simp only [isDirectory_replace, isSome_file?_replace, follow?_replace pieces]

/-- **Paths lead where they did.** -/
theorem locate?_replace (base : Place) (path : RawText) :
    (tree.replace place content).locate? base path = tree.locate? base path := by
  rw [locate?, locate?, follow?_replace]

theorem read_replace_of_ne {other : Place} (h : other ≠ place) :
    (tree.replace place content).read other = tree.read other := by
  rw [read, read, file?_replace_of_ne tree content h, isDirectory_replace]

/-- The replaced file reads as its new content, if that is text. -/
theorem read_replace_self_iff {text : String} (h : (tree.file? place).isSome = true) :
    (tree.replace place content).read place = .ok text ↔ String.fromUTF8? content = some text := by
  obtain ⟨old, hold⟩ := Option.isSome_iff_exists.1 h
  rw [read, file?_replace, hold, Option.map_some, if_pos rfl]
  dsimp only
  cases String.fromUTF8? content <;> simp

theorem fileAt?_replace {base : Place} {path : RawText} (h : tree.locate? base path ≠ some place) :
    (tree.replace place content).fileAt? base path = tree.fileAt? base path := by
  rw [fileAt?, fileAt?, locate?_replace]
  cases hlocate : tree.locate? base path with
  | none => rfl
  | some other => exact file?_replace_of_ne tree content fun hother => h (hlocate.trans (congrArg some hother))

end Replace

end FileTree

end Marginalia
