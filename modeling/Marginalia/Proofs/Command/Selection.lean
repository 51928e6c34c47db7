import Mathlib.Data.List.Sort
import Marginalia.Command.Scan
import Marginalia.Proofs.Path
/-!
# Which files are scanned

The files to scan are the union of what the roots lead to.  A file that is named is met as it is; of a directory those
files are met that its walk yields and no glob excludes (`Finds`).  Sorting keeps files with the same path in the order
in which they were met (`filter_mergeSort`), so dropping all but the first of neighbours leaves each path once, as it was
first spelled (`mem_select_iff`).  What remains is sorted strictly, and so it depends on the set of the roots alone.
-/
namespace Marginalia

open Marginalia.Path (Same Before keys)

theorem Configuration.languageOf?_congr (c : Configuration) {a b : RawText} (h : Same a b) :
    c.languageOf? a = c.languageOf? b := by
  rw [languageOf?, languageOf?, Path.extension?_congr h]

namespace Scan

/-! ## What the roots lead to -/

/-- The path leads to a file. -/
structure Names (tree : FileTree) (base : Place) (root : RawText) (place : Place) : Prop where
  located : tree.locate? base root = some place
  is_file : (tree.file? place).isSome = true

/-- The path leads to a directory, and the walk of it yields a file that lies `below`.  A lone dash means the standard
input, and nothing lies below that. -/
structure Walks (tree : FileTree) (base : Place) (c : Configuration) (root : RawText) (place below : Place) : Prop where
  located : tree.locate? base root = some place
  not_file : (tree.file? place).isSome = false
  not_dash : Path.components root ≠ [.name "-"]
  yielded : below ∈ Walk.files tree base (walkOptions c) ⟨root, place⟩

/-- The path of what lies `below` a directory, as seen from there. -/
def relative (below : Place) : RawText := [Path.slash].intercalate below

/-- The files that a root leads to. -/
inductive Finds (tree : FileTree) (base : Place) (c : Configuration) (root : RawText) : SourceFile → Prop
  /-- The root itself, whatever excludes it. -/
  | named {place : Place} {language : Language} : Names tree base root place → c.languageOf? root = some language →
      Finds tree base c root ⟨root, place, language⟩
  | walked {place below : Place} {language : Language} : Walks tree base c root place below →
      c.isExcluded (relative below) = false → c.languageOf? (Path.descend root below) = some language →
      Finds tree base c root ⟨Path.descend root below, place ++ below, language⟩

variable {tree : FileTree} {base : Place} {c : Configuration} {root : RawText} {roots : List RawText} {place : Place}

theorem filesOfRoot_file (h : Names tree base root place) :
    filesOfRoot tree base c root = ((c.languageOf? root).map (⟨root, place, ·⟩)).toList := by
  rw [filesOfRoot, h.located]
  dsimp only
  rw [if_pos h.is_file]

theorem filesOfRoot_directory (hplace : tree.locate? base root = some place) (hfile : (tree.file? place).isSome = false) :
    filesOfRoot tree base c root =
      if Path.components root = [.name "-"] then []
      else (Walk.files tree base (walkOptions c) ⟨root, place⟩).filterMap fun below =>
        if c.isExcluded (relative below) then none
        else (c.languageOf? (Path.descend root below)).map (⟨Path.descend root below, place ++ below, ·⟩) := by
  rw [filesOfRoot, hplace]
  dsimp only
  rw [if_neg (Bool.eq_false_iff.1 hfile)]
  rfl

theorem Finds.mem_filesOfRoot {file : SourceFile} (h : Finds tree base c root file) :
    file ∈ filesOfRoot tree base c root := by
  cases h with
  | named hnames hlanguage =>
    rw [filesOfRoot_file hnames, hlanguage]
    exact List.mem_cons_self
  | walked hwalks hexcluded hlanguage =>
    rw [filesOfRoot_directory hwalks.located hwalks.not_file, if_neg hwalks.not_dash]
    refine List.mem_filterMap.2 ⟨_, hwalks.yielded, ?_⟩
    rw [if_neg (Bool.eq_false_iff.1 hexcluded), hlanguage]
    rfl

theorem finds_of_mem_filesOfRoot {file : SourceFile} (h : file ∈ filesOfRoot tree base c root) :
    Finds tree base c root file := by
  cases hplace : tree.locate? base root with
  | none =>
    rw [filesOfRoot, hplace] at h
    cases h
  | some place =>
    cases hfile : (tree.file? place).isSome with
    | true =>
      rw [filesOfRoot_file ⟨hplace, hfile⟩, Option.mem_toList, Option.map_eq_some_iff] at h
      obtain ⟨language, hlanguage, rfl⟩ := h
      exact .named ⟨hplace, hfile⟩ hlanguage
    | false =>
      rw [filesOfRoot_directory hplace hfile] at h
      split at h
      · cases h
      · rename_i hdash
        obtain ⟨below, hbelow, h⟩ := List.mem_filterMap.1 h
        split at h
        · cases h
        · rename_i hexcluded
          obtain ⟨language, hlanguage, rfl⟩ := Option.map_eq_some_iff.1 h
          exact .walked ⟨hplace, hfile, hdash, hbelow⟩ (Bool.eq_false_iff.2 hexcluded) hlanguage

theorem Finds.languageOf? {file : SourceFile} (h : Finds tree base c root file) :
    c.languageOf? file.path = some file.language := by
  cases h with
  | named _ hlanguage => exact hlanguage
  | walked _ _ hlanguage => exact hlanguage

/-! ## Sorting and dropping -/

theorem filter_mergeSort {α : Type} {le : α → α → Bool} (trans : ∀ a b c, le a b = true → le b c = true → le a c = true)
    (total : ∀ a b, (le a b || le b a) = true) {p : α → Bool} (l : List α)
    (h : ∀ a b, p a = true → p b = true → le a b = true) : (l.mergeSort le).filter p = l.filter p := by
  have hpairwise : (l.filter p).Pairwise fun a b => le a b = true :=
    List.pairwise_of_forall_mem_list fun a ha b hb => h a b (List.mem_filter.1 ha).2 (List.mem_filter.1 hb).2
  have hsub := (List.sublist_mergeSort trans total hpairwise List.filter_sublist).filter p
  rw [List.filter_filter] at hsub
  simp only [Bool.and_self] at hsub
  exact (hsub.eq_of_length ((List.mergeSort_perm l le).filter p).length_eq.symm).symm

def samePath (file other : SourceFile) : Bool := Path.components other.path == Path.components file.path

theorem samePath_iff {file other : SourceFile} : samePath file other = true ↔ Same other.path file.path := beq_iff_eq

/-- The files are in the order of their paths; the same path may stand more than once. -/
def Sorted (files : List SourceFile) : Prop := files.Pairwise fun a b => keys a.path ≤ keys b.path

theorem before_of_mem_dropWhile {file : SourceFile} : ∀ {files : List SourceFile}, Sorted (file :: files) →
    ∀ other ∈ files.dropWhile (samePath file), Before file.path other.path
  | [], _, other, hother => by cases hother
  | next :: files, h, other, hother => by
    obtain ⟨hfile, htail⟩ := List.pairwise_cons.1 h
    rw [List.dropWhile_cons] at hother
    split at hother
    · exact before_of_mem_dropWhile (h.sublist (List.cons_sublist_cons.2 (List.sublist_cons_self _ _))) other hother
    · rename_i hdiffer
      have hnext : Before file.path next.path := by
        refine lt_of_le_of_ne (hfile next List.mem_cons_self) fun heq => hdiffer (samePath_iff.2 ?_)
        exact (Path.keys_eq_iff.1 heq).symm
      rcases List.mem_cons.1 hother with rfl | hother
      · exact hnext
      · exact lt_of_lt_of_le hnext ((List.pairwise_cons.1 htail).1 other hother)

theorem dropRepeated_cons (file : SourceFile) (files : List SourceFile) :
    dropRepeated (file :: files) = file :: dropRepeated (files.dropWhile (samePath file)) := by
  rw [dropRepeated]
  rfl

theorem dropRepeated_sublist (files : List SourceFile) : (dropRepeated files).Sublist files := by
  fun_induction dropRepeated files with
  | case1 => exact List.Sublist.refl _
  | case2 file files ih => exact (ih.trans (List.dropWhile_sublist _)).cons_cons file

theorem sorted_dropWhile {file : SourceFile} {files : List SourceFile} (h : Sorted (file :: files)) :
    Sorted (files.dropWhile (samePath file)) :=
  h.of_cons.sublist (List.dropWhile_sublist _)

theorem pairwise_dropRepeated {files : List SourceFile} (h : Sorted files) :
    (dropRepeated files).Pairwise fun a b => Before a.path b.path := by
  fun_induction dropRepeated files with
  | case1 => exact List.Pairwise.nil
  | case2 file files ih =>
    refine List.pairwise_cons.2 ⟨fun other hother => ?_, ih (sorted_dropWhile h)⟩
    exact before_of_mem_dropWhile h other ((dropRepeated_sublist _).subset hother)

theorem find?_dropWhile {file other : SourceFile} (h : ¬ Same file.path other.path) (files : List SourceFile) :
    (files.dropWhile (samePath file)).find? (samePath other) = files.find? (samePath other) := by
  induction files with
  | nil => rfl
  | cons next files ih =>
    rw [List.dropWhile_cons]
    split
    · rename_i hnext
      rw [ih, List.find?_cons_of_neg]
      exact fun hother => h ((samePath_iff.1 hnext).symm.trans (samePath_iff.1 hother))
    · rfl

/-- Of the files with the same path the first one remains. -/
theorem mem_dropRepeated_iff {files : List SourceFile} (h : Sorted files) (other : SourceFile) :
    other ∈ dropRepeated files ↔ files.find? (samePath other) = some other := by
  fun_induction dropRepeated files with
  | case1 => simp
  | case2 file files ih =>
    rw [List.mem_cons]
    by_cases hsame : Same file.path other.path
    · rw [List.find?_cons_of_pos (samePath_iff.2 hsame), Option.some_inj, eq_comm, or_iff_left]
      intro hmem
      have hbefore := before_of_mem_dropWhile h other ((dropRepeated_sublist _).subset hmem)
      exact hbefore.ne (Path.keys_eq_iff.2 hsame)
    · have hdrop := find?_dropWhile hsame files
      rw [List.find?_cons_of_neg (mt samePath_iff.1 hsame), ← hdrop]
      refine (or_iff_right ?_).trans (ih (sorted_dropWhile h))
      rintro rfl
      exact hsame rfl

def byPath (a b : SourceFile) : Bool := Path.le a.path b.path

theorem byPath_trans (a b c : SourceFile) (hab : byPath a b = true) (hbc : byPath b c = true) : byPath a c = true :=
  Path.le_trans _ _ _ hab hbc

theorem byPath_total (a b : SourceFile) : (byPath a b || byPath b a) = true := by
  rw [Bool.or_eq_true]
  exact (le_total _ _).imp Path.le_iff.2 Path.le_iff.2

theorem sorted_mergeSort (files : List SourceFile) : Sorted (files.mergeSort byPath) :=
  (List.pairwise_mergeSort byPath_trans byPath_total files).imp Path.le_iff.1

/-- Sorting leaves the first file of each path the first one. -/
theorem find?_mergeSort (file : SourceFile) (files : List SourceFile) :
    (files.mergeSort byPath).find? (samePath file) = files.find? (samePath file) := by
  rw [← List.head?_filter, ← List.head?_filter, filter_mergeSort byPath_trans byPath_total]
  intro a b ha hb
  have hsame : Same a.path b.path := (samePath_iff.1 ha).trans (samePath_iff.1 hb).symm
  exact Path.le_iff.2 (Path.keys_eq_iff.2 hsame).le

/-! ## The selection -/

/-- The files that the roots lead to, in the order in which they are met. -/
def met (tree : FileTree) (base : Place) (c : Configuration) (roots : List RawText) : List SourceFile :=
  roots.flatMap (filesOfRoot tree base c)

theorem mem_met_iff {file : SourceFile} : file ∈ met tree base c roots ↔ ∃ root ∈ roots, Finds tree base c root file := by
  rw [met, List.mem_flatMap]
  exact exists_congr fun root => and_congr_right fun _ => ⟨finds_of_mem_filesOfRoot, Finds.mem_filesOfRoot⟩

theorem select_eq : select tree base c roots = dropRepeated ((met tree base c roots).mergeSort byPath) := rfl

/-- Where one file is met there is nothing to sort or to drop. -/
theorem select_of_met {file : SourceFile} (h : met tree base c roots = [file]) : select tree base c roots = [file] := by
  rw [select_eq, h, List.mergeSort_singleton, dropRepeated_cons, List.dropWhile_nil, dropRepeated]

theorem pairwise_select (tree : FileTree) (base : Place) (c : Configuration) (roots : List RawText) :
    (select tree base c roots).Pairwise fun a b => Before a.path b.path :=
  pairwise_dropRepeated (sorted_mergeSort _)

theorem mem_select_iff {file : SourceFile} :
    file ∈ select tree base c roots ↔ (met tree base c roots).find? (samePath file) = some file := by
  rw [select_eq, mem_dropRepeated_iff (sorted_mergeSort _), find?_mergeSort]

theorem finds_of_mem_select {file : SourceFile} (h : file ∈ select tree base c roots) :
    ∃ root ∈ roots, Finds tree base c root file :=
  mem_met_iff.1 (List.mem_of_find?_eq_some (mem_select_iff.1 h))

/-- The first file that is met with a path is selected. -/
theorem exists_mem_select {file : SourceFile} (h : root ∈ roots) (hfinds : Finds tree base c root file) :
    ∃ first ∈ select tree base c roots, Same first.path file.path ∧ first.language = file.language := by
  have hmet : file ∈ met tree base c roots := mem_met_iff.2 ⟨root, h, hfinds⟩
  obtain ⟨first, hfirst⟩ := Option.isSome_iff_exists.1
    (List.find?_isSome.2 ⟨file, hmet, samePath_iff.2 (rfl : Same file.path file.path)⟩)
  have hsame : Same first.path file.path := samePath_iff.1 (List.find?_some hfirst)
  have hpred : samePath first = samePath file := by
    funext other
    rw [samePath, samePath, hsame]
  have hselect : first ∈ select tree base c roots := mem_select_iff.2 (by rw [hpred, hfirst])
  obtain ⟨root', -, hfinds'⟩ := finds_of_mem_select hselect
  refine ⟨first, hselect, hsame, Option.some.inj ?_⟩
  rw [← hfinds'.languageOf?, ← hfinds.languageOf?, c.languageOf?_congr hsame]

/-- **A path is selected exactly if some root leads to it.** -/
theorem exists_mem_select_iff {path : RawText} : (∃ file ∈ select tree base c roots, Same file.path path) ↔
    ∃ root ∈ roots, ∃ file, Finds tree base c root file ∧ Same file.path path := by
  constructor
  · rintro ⟨file, hfile, hsame⟩
    obtain ⟨root, hroot, hfinds⟩ := finds_of_mem_select hfile
    exact ⟨root, hroot, file, hfinds, hsame⟩
  · rintro ⟨root, hroot, file, hfinds, hsame⟩
    obtain ⟨first, hfirst, hsame', -⟩ := exists_mem_select hroot hfinds
    exact ⟨first, hfirst, hsame'.trans hsame⟩

/-- A file to scan but for the spelling of its path. -/
def unspelled (file : SourceFile) : List Component × Language := (Path.components file.path, file.language)

theorem mem_map_unspelled_iff {x : List Component × Language} : x ∈ (select tree base c roots).map unspelled ↔
    ∃ root ∈ roots, ∃ file, Finds tree base c root file ∧ unspelled file = x := by
  rw [List.mem_map]
  constructor
  · rintro ⟨file, hfile, hx⟩
    obtain ⟨root, hroot, hfinds⟩ := finds_of_mem_select hfile
    exact ⟨root, hroot, file, hfinds, hx⟩
  · rintro ⟨root, hroot, file, hfinds, rfl⟩
    obtain ⟨first, hfirst, hsame, hlanguage⟩ := exists_mem_select hroot hfinds
    exact ⟨first, hfirst, Prod.ext hsame hlanguage⟩

/-- **The selection depends on the set of the roots alone**, but for the spelling of paths. -/
theorem select_congr {roots' : List RawText} (h : ∀ root, root ∈ roots' ↔ root ∈ roots) :
    (select tree base c roots').map unspelled = (select tree base c roots).map unspelled := by
  let earlier (a b : List Component × Language) : Prop := a.1.map Component.key < b.1.map Component.key
  have hsorted : ∀ roots, ((select tree base c roots).map unspelled).Pairwise earlier := fun roots =>
    List.pairwise_map.2 (pairwise_select tree base c roots)
  have : Std.Irrefl earlier := ⟨fun a => lt_irrefl (a.1.map Component.key)⟩
  have : Std.Antisymm earlier := ⟨fun a b hab hba => absurd (lt_trans hab hba) (lt_irrefl _)⟩
  refine (hsorted roots').eq_of_mem_iff (hsorted roots) fun x => ?_
  rw [mem_map_unspelled_iff, mem_map_unspelled_iff]
  exact exists_congr fun root => and_congr_left fun _ => h root

/-- **An exclude drops a file that was walked to** only if no root names it and every walk that comes to it sees a path
that is excluded. -/
theorem dropped_iff {path : RawText} (hlanguage : (c.languageOf? path).isSome = true) :
    (∀ file ∈ select tree base c roots, ¬ Same file.path path) ↔
      (∀ root ∈ roots, Same root path → ∀ place, ¬ Names tree base root place) ∧
      ∀ root ∈ roots, ∀ place below, Walks tree base c root place below → Same (Path.descend root below) path →
        c.isExcluded (relative below) = true := by
  obtain ⟨language, hlanguage⟩ := Option.isSome_iff_exists.1 hlanguage
  have hselect := @exists_mem_select_iff tree base c roots path
  rw [← not_iff_not] at hselect
  simp only [not_exists, not_and] at hselect
  rw [hselect]
  constructor
  · intro h
    refine ⟨fun root hroot hsame place hnames => ?_, fun root hroot place below hwalks hsame => ?_⟩
    · exact h root hroot _ (.named hnames ((c.languageOf?_congr hsame).trans hlanguage)) hsame
    · by_contra hexcluded
      exact h root hroot _ (.walked hwalks (Bool.eq_false_iff.2 hexcluded)
        ((c.languageOf?_congr hsame).trans hlanguage)) hsame
  · rintro ⟨hnamed, hwalked⟩ root hroot file hfinds hsame
    cases hfinds with
    | named hnames _ => exact hnamed root hroot hsame _ hnames
    | walked hwalks hexcluded _ =>
      rw [hwalked root hroot _ _ hwalks hsame] at hexcluded
      cases hexcluded

/-- **The files to scan are the union of what the roots lead to**: each path once, spelled as it is first met, and in the
order of paths.  The order and the repetition of roots make no difference but for the spelling, and an exclude drops a
file only if no root names it and every walk that comes to it sees a path that is excluded. -/
theorem select_union (tree : FileTree) (base : Place) (c : Configuration) (roots : List RawText) :
    (select tree base c roots).Pairwise (fun a b => Before a.path b.path) ∧
    (∀ file, file ∈ select tree base c roots ↔ ∃ earlier later, met tree base c roots = earlier ++ file :: later ∧
      ∀ other ∈ earlier, ¬ Same other.path file.path) ∧
    (∀ file, file ∈ met tree base c roots ↔ ∃ root ∈ roots, Finds tree base c root file) ∧
    (∀ path, (∃ file ∈ select tree base c roots, Same file.path path) ↔
      ∃ root ∈ roots, ∃ file, Finds tree base c root file ∧ Same file.path path) ∧
    (∀ roots', (∀ root, root ∈ roots' ↔ root ∈ roots) →
      (select tree base c roots').map unspelled = (select tree base c roots).map unspelled) ∧
    ∀ path, (c.languageOf? path).isSome = true → ((∀ file ∈ select tree base c roots, ¬ Same file.path path) ↔
      (∀ root ∈ roots, Same root path → ∀ place, ¬ Names tree base root place) ∧
      ∀ root ∈ roots, ∀ place below, Walks tree base c root place below → Same (Path.descend root below) path →
        c.isExcluded (relative below) = true) := by
  refine ⟨pairwise_select tree base c roots, fun file => ?_, fun file => mem_met_iff, fun path => exists_mem_select_iff,
    fun roots' h => select_congr h, fun path h => dropped_iff h⟩
  rw [mem_select_iff, List.find?_eq_some_iff_append]
  have hself : samePath file file = true := samePath_iff.2 rfl
  simp only [hself, true_and, Bool.not_eq_true', Bool.eq_false_iff, ne_eq, samePath_iff]

/-- A directory with a file that is generated and one that is not. -/
def sources : FileTree :=
  ⟨[(["src", "app.ts"], .empty), (["src", "gen", "out.ts"], .empty), (["src", "lib", "tool.py"], .empty),
    (["src", "README.md"], .empty)], []⟩

/-- What is in `gen` is excluded. -/
def withoutGenerated : Configuration := { globs := (Glob.ofText "gen/*".toList).toOption.toList }

theorem select_union_sources :
    (∀ root, root ∈ (["src", "src/gen/out.ts", "src"] : List RawText) ↔
      root ∈ (["src/gen/out.ts", "src"] : List RawText)) ∧
    (select sources [] withoutGenerated ["src", "src/gen/out.ts", "src"]).map unspelled =
      (select sources [] withoutGenerated ["src/gen/out.ts", "src"]).map unspelled ∧
    (∃ file ∈ select sources [] withoutGenerated ["src/gen/out.ts", "src"], Same file.path "src/gen/out.ts") ∧
    (withoutGenerated.languageOf? "src/gen/out.ts").isSome = true ∧
    ∀ file ∈ select sources [] withoutGenerated ["src"], ¬ Same file.path "src/gen/out.ts" := by
  have hroots : ∀ root, root ∈ (["src", "src/gen/out.ts", "src"] : List RawText) ↔
      root ∈ (["src/gen/out.ts", "src"] : List RawText) := by
    intro root
    simp only [List.mem_cons, List.not_mem_nil, or_false]
    tauto
  have hlanguage : withoutGenerated.languageOf? "src/gen/out.ts" = some .typescript := by decide +kernel
  obtain ⟨-, -, -, hunion, hset, -⟩ := select_union sources [] withoutGenerated ["src/gen/out.ts", "src"]
  obtain ⟨-, -, -, -, -, hdropped⟩ := select_union sources [] withoutGenerated ["src"]
  refine ⟨hroots, hset _ hroots, (hunion _).2 ?_, by rw [hlanguage]; rfl, (hdropped _ (by rw [hlanguage]; rfl)).2 ⟨?_, ?_⟩⟩
  · have hnames : Names sources [] "src/gen/out.ts" ["src", "gen", "out.ts"] := ⟨by decide +kernel, by decide +kernel⟩
    exact ⟨_, List.mem_cons_self, _, .named hnames hlanguage, rfl⟩
  · intro root hroot hsame
    obtain rfl := List.mem_singleton.1 hroot
    unfold Same at hsame
    exact absurd hsame (by decide +kernel)
  · intro root hroot place below hwalks hsame
    obtain rfl := List.mem_singleton.1 hroot
    obtain rfl : place = (["src"] : Place) := by
      have hplace : sources.locate? [] "src" = some (["src"] : Place) := by decide +kernel
      exact Option.some.inj (hwalks.located.symm.trans hplace)
    have hyielded : Walk.files sources [] (walkOptions withoutGenerated) ⟨"src", ["src"]⟩ =
        ([["app.ts"], ["gen", "out.ts"], ["lib", "tool.py"], ["README.md"]] : List Place) := by decide +kernel
    have hbelow := hwalks.yielded
    rw [hyielded] at hbelow
    simp only [List.mem_cons, List.not_mem_nil, or_false] at hbelow
    unfold Same at hsame
    rcases hbelow with rfl | rfl | rfl | rfl
    · exact absurd hsame (by decide +kernel)
    · decide +kernel
    · exact absurd hsame (by decide +kernel)
    · exact absurd hsame (by decide +kernel)

end Scan

end Marginalia
