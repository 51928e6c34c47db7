import Mathlib.Data.Finset.Card
import Mathlib.Data.Set.List
import Marginalia.Proofs.Command.Isolation
/-!
# Roots that overlap

Roots may lead to the same file, and a file that they lead to by one path is selected once.  But paths are compared by
their components, and a leading dot is one of them: `.` and `src` lead to the same file by two paths.  So a file is
scanned once for each path that leads to it (`mem_spelled_iff`).  Where the roots never go up, its place and how the root
begins decide that path (`Finds.components_eq`), so there are three paths at most, and there is a single one exactly if
the roots that lead to the file all begin alike (`scanned_once_iff`).
-/
namespace Marginalia

open Marginalia.Path (components component?)

/-! ## How a path begins -/

/-- Where a path begins: at the top, or where the reader is, with a dot or without one. -/
inductive Beginning
  | top
  | here
  | bare
deriving DecidableEq, Repr

namespace Beginning

def steps : Beginning → List Component
  | top => [.top]
  | here => [.here]
  | bare => []

def place (base : Place) : Beginning → Place
  | top => []
  | here => base
  | bare => base

def ofComponents : List Component → Beginning
  | .top :: _ => top
  | .here :: _ => here
  | _ => bare

/-- The path that begins so and leads to a place along names alone, by its components. -/
def spelling (base place : Place) (b : Beginning) : List Component :=
  b.steps ++ (place.drop (b.place base).length).map .name

theorem ofComponents_eq_bare {steps : List Component} (h : ∀ step ∈ steps, step ≠ .top ∧ step ≠ .here) :
    ofComponents steps = bare := by
  unfold ofComponents
  split
  · exact absurd rfl (h .top List.mem_cons_self).1
  · exact absurd rfl (h .here List.mem_cons_self).2
  · rfl

theorem ofComponents_steps (b : Beginning) (names : List RawText) :
    ofComponents (b.steps ++ names.map .name) = b := by
  cases b with
  | top => rfl
  | here => rfl
  | bare => exact ofComponents_eq_bare (by simp [steps])

end Beginning

namespace Path

def beginning (path : RawText) : Beginning := .ofComponents (components path)

theorem component?_step {piece : RawText} {step : Component} (h : component? piece = some step) :
    step ≠ .top ∧ step ≠ .here := by
  unfold component? at h
  split at h
  · cases h
  · split at h <;> cases h <;> exact ⟨nofun, nofun⟩

/-- Behind the beginning there are only names and steps up. -/
theorem exists_components (path : RawText) : ∃ rest, components path = (beginning path).steps ++ rest ∧
    ∀ step ∈ rest, step ≠ .top ∧ step ≠ .here := by
  have hfilter : ∀ pieces : List RawText, ∀ step ∈ pieces.filterMap component?, step ≠ .top ∧ step ≠ .here := by
    intro pieces step hstep
    obtain ⟨piece, -, hpiece⟩ := List.mem_filterMap.1 hstep
    exact component?_step hpiece
  obtain ⟨first, rest, hpieces⟩ := List.exists_cons_of_ne_nil (pieces_ne_nil path)
  have hplain : components path = (first :: rest).filterMap component? → ∃ rest, components path =
      (beginning path).steps ++ rest ∧ ∀ step ∈ rest, step ≠ .top ∧ step ≠ .here := by
    intro h
    refine ⟨_, ?_, hfilter (first :: rest)⟩
    rw [beginning, h, Beginning.ofComponents_eq_bare (hfilter _)]
    rfl
  have hcomponents : components path = (if first = [] then (if rest.isEmpty then [] else [Component.top])
      else if first = [Path.dot] then [.here] else (component? first).toList) ++ rest.filterMap component? := by
    rw [components, hpieces]
  split at hcomponents
  · rename_i hfirst
    split at hcomponents
    · rename_i hrest
      refine hplain (hcomponents.trans ?_)
      rw [hfirst, List.isEmpty_iff.1 hrest]
      rfl
    · refine ⟨_, ?_, hfilter rest⟩
      rw [beginning, hcomponents]
      rfl
  · split at hcomponents
    · refine ⟨_, ?_, hfilter rest⟩
      rw [beginning, hcomponents]
      rfl
    · refine hplain (hcomponents.trans ?_)
      cases hfirst : component? first with
      | none => rw [List.filterMap_cons_none hfirst]; rfl
      | some step => rw [List.filterMap_cons_some hfirst]; rfl

/-- A path that never goes up consists of its beginning and names. -/
theorem exists_names {path : RawText} (h : Component.up ∉ components path) :
    ∃ names : List RawText, components path = (beginning path).steps ++ names.map Component.name := by
  obtain ⟨rest, hrest, hsteps⟩ := exists_components path
  have hnames : rest ∈ Set.range (List.map Component.name) := by
    rw [Set.range_list_map]
    intro step hstep
    cases step with
    | top => exact absurd rfl (hsteps _ hstep).1
    | here => exact absurd rfl (hsteps _ hstep).2
    | up => exact absurd (hrest ▸ List.mem_append_right _ hstep) h
    | name s => exact ⟨s, rfl⟩
  obtain ⟨names, rfl⟩ := hnames
  exact ⟨names, hrest⟩

end Path

theorem Component.foldl_follow_names (names : List RawText) (place : Place) :
    (names.map Component.name).foldl Component.follow place = place ++ names := by
  induction names generalizing place with
  | nil => simp
  | cons name names ih => simp [ih, Component.follow]

theorem Beginning.foldl_follow_steps (b : Beginning) (base : Place) (names : List RawText) :
    (b.steps ++ names.map Component.name).foldl Component.follow base = b.place base ++ names := by
  rw [List.foldl_append, Component.foldl_follow_names]
  cases b <;> rfl

/-- Every file is at a place that names lead to. -/
def FileTree.WellNamed (tree : FileTree) : Prop := ∀ entry ∈ tree.files, ∀ name ∈ entry.1, Path.IsName name

theorem FileTree.WellNamed.isName {tree : FileTree} (h : tree.WellNamed) {place : Place}
    (hfile : (tree.file? place).isSome = true) : ∀ name ∈ place, Path.IsName name := by
  rw [FileTree.file?, Option.isSome_map, List.find?_isSome] at hfile
  obtain ⟨entry, hentry, hplace⟩ := hfile
  obtain rfl : entry.1 = place := by simpa using hplace
  exact h entry hentry

namespace Scan

variable {tree : FileTree} {base place : Place} {c : Configuration} {root : RawText} {roots : List RawText}

/-! ## The path that leads to a file -/

section Finds

variable {file : SourceFile} (hnamed : tree.WellNamed) (h : Finds tree base c root file)
include hnamed h

/-- A file lies below its root, and its path leads on from the root along names. -/
theorem Finds.exists_below : ∃ start below, tree.locate? base root = some start ∧ file.place = start ++ below ∧
    components file.path = components root ++ below.map .name := by
  have hfile := h.is_file
  cases h with
  | named hnames _ => exact ⟨_, [], hnames.located, by simp, by simp⟩
  | @walked start below _ hwalks _ _ =>
    refine ⟨start, below, hwalks.located, rfl, Path.components_descend ?_ fun name hname => ?_⟩
    · rintro rfl
      cases hwalks.located
    · exact hnamed.isName hfile name (List.mem_append_right _ hname)

/-- Where a file lies is decided by the components of its path. -/
theorem Finds.place_eq : file.place = (components file.path).foldl Component.follow base := by
  obtain ⟨start, below, hstart, hplace, hpath⟩ := h.exists_below hnamed
  rw [hplace, hpath, List.foldl_append, ← FileTree.locate?_eq hstart, Component.foldl_follow_names]

/-- **The path of a file is decided by where it lies and how its root begins**, if the root never goes up. -/
theorem Finds.components_eq (hup : Component.up ∉ components root) :
    components file.path = (Path.beginning root).spelling base file.place := by
  obtain ⟨start, below, hstart, hplace, hpath⟩ := h.exists_below hnamed
  obtain ⟨names, hnames⟩ := Path.exists_names hup
  have hroot := FileTree.locate?_eq hstart
  rw [hnames, Beginning.foldl_follow_steps] at hroot
  rw [hpath, hnames, hplace, hroot, Beginning.spelling]
  simp

/-- The path of a file begins as its root does. -/
theorem Finds.beginning_eq (hup : Component.up ∉ components root) : Path.beginning file.path = Path.beginning root := by
  rw [Path.beginning, h.components_eq hnamed hup, Beginning.spelling, Beginning.ofComponents_steps]

theorem Finds.fileName?_eq : Path.fileName? file.path = file.place.getLast? := by
  obtain ⟨name, -, hname, -⟩ := extensionOfName?_of_languageOf? h.languageOf?
  have hlast : (components file.path).getLast? = some (.name name) := by
    unfold Path.fileName? at hname
    split at hname
    · rename_i s hlast
      rw [hlast, Option.some.inj hname]
    · cases hname
  obtain ⟨before, hbefore⟩ := List.getLast?_eq_some_iff.1 hlast
  rw [hname, h.place_eq hnamed, hbefore, List.foldl_append]
  exact List.getLast?_concat.symm

/-- **A file is in the same language by whatever path it is found.** -/
theorem Finds.language_eq {root' : RawText} {other : SourceFile} (h' : Finds tree base c root' other)
    (hplace : other.place = file.place) : other.language = file.language := by
  have hname : Path.fileName? other.path = Path.fileName? file.path := by
    rw [h.fileName?_eq hnamed, h'.fileName?_eq hnamed, hplace]
  apply Option.some.inj
  rw [← h.languageOf?, ← h'.languageOf?, Configuration.languageOf?, Configuration.languageOf?, Path.extension?,
    Path.extension?, hname]

end Finds

/-! ## The diagrams of a file -/

/-- The diagrams that are reported on a file. -/
def diagrams (tree : FileTree) (file : SourceFile) : List Block := (report? tree file).elim [] (·.blocks)

/-- The path makes no difference to the diagrams. -/
theorem diagrams_congr {file other : SourceFile} (hplace : other.place = file.place)
    (hlanguage : other.language = file.language) : diagrams tree other = diagrams tree file := by
  unfold diagrams report?
  rw [hplace, hlanguage]
  cases (tree.read file.place).toOption with
  | none => rfl
  | some text =>
    simp only [Option.bind_eq_bind, Option.bind_some]
    cases (Document.parse file.language text).toOption with
    | none => rfl
    | some found => cases found <;> rfl

theorem flatMap_reports (tree : FileTree) (files : List SourceFile) :
    (reports tree files).flatMap (·.blocks) = files.flatMap (diagrams tree) := by
  rw [reports, List.filterMap_eq_flatMap_toList, List.flatMap_assoc]
  refine List.flatMap_congr fun file _ => ?_
  unfold diagrams
  cases report? tree file with
  | none => rfl
  | some report => simp

/-! ## How often a file is scanned -/

/-- The file at a place, as often as it is scanned. -/
def scannedAt (tree : FileTree) (base : Place) (c : Configuration) (roots : List RawText) (place : Place) :
    List SourceFile :=
  (select tree base c roots).filter (·.place = place)

/-- A root leads to the file at a place. -/
def LeadsTo (tree : FileTree) (base : Place) (c : Configuration) (root : RawText) (place : Place) : Prop :=
  ∃ file, Finds tree base c root file ∧ file.place = place

theorem mem_scannedAt_iff {file : SourceFile} :
    file ∈ scannedAt tree base c roots place ↔ file ∈ select tree base c roots ∧ file.place = place := by
  simp [scannedAt]

/-- The paths by which a file is scanned. -/
def spelled (files : List SourceFile) : List (List Component) := files.map fun file => components file.path

theorem nodup_spelled (tree : FileTree) (base : Place) (c : Configuration) (roots : List RawText) (place : Place) :
    (spelled (scannedAt tree base c roots place)).Nodup := by
  refine List.pairwise_map.2 (((pairwise_select tree base c roots).filter _).imp fun {a b} hbefore heq => ?_)
  exact hbefore.ne (Path.keys_eq_iff.2 heq)

/-- **A file is scanned by each path by which some root leads to it.** -/
theorem mem_spelled_iff (hnamed : tree.WellNamed) {steps : List Component} :
    steps ∈ spelled (scannedAt tree base c roots place) ↔
      ∃ root ∈ roots, ∃ file, Finds tree base c root file ∧ file.place = place ∧ components file.path = steps := by
  rw [spelled, List.mem_map]
  constructor
  · rintro ⟨file, hfile, hsteps⟩
    obtain ⟨hselect, hplace⟩ := mem_scannedAt_iff.1 hfile
    obtain ⟨root, hroot, hfinds⟩ := finds_of_mem_select hselect
    exact ⟨root, hroot, file, hfinds, hplace, hsteps⟩
  · rintro ⟨root, hroot, file, hfinds, hplace, hsteps⟩
    obtain ⟨first, hfirst, hsame, -⟩ := exists_mem_select hroot hfinds
    obtain ⟨root', -, hfinds'⟩ := finds_of_mem_select hfirst
    refine ⟨first, mem_scannedAt_iff.2 ⟨hfirst, ?_⟩, hsame.trans hsteps⟩
    rw [← hplace, hfinds.place_eq hnamed, hfinds'.place_eq hnamed, hsame]

/-- The ways in which the paths begin by which a file is scanned. -/
def beginnings (files : List SourceFile) : List Beginning := files.map fun file => Path.beginning file.path

/-- The diagrams of a file are the same each time. -/
theorem exists_diagrams (hnamed : tree.WellNamed) (base place : Place) (c : Configuration) (roots : List RawText) :
    ∃ found, ∀ file ∈ scannedAt tree base c roots place, diagrams tree file = found := by
  cases hfiles : scannedAt tree base c roots place with
  | nil => exact ⟨[], by simp⟩
  | cons first rest =>
    refine ⟨diagrams tree first, fun file hfile => ?_⟩
    obtain ⟨hselect, hplace⟩ := mem_scannedAt_iff.1 (hfiles ▸ List.mem_cons_self : first ∈ scannedAt ..)
    obtain ⟨hselect', hplace'⟩ := mem_scannedAt_iff.1 (hfiles ▸ hfile : file ∈ scannedAt ..)
    obtain ⟨root, -, hfinds⟩ := finds_of_mem_select hselect
    obtain ⟨root', -, hfinds'⟩ := finds_of_mem_select hselect'
    have hsame : file.place = first.place := hplace'.trans hplace.symm
    exact diagrams_congr hsame (hfinds.language_eq hnamed hfinds' hsame)

/-- A list without repetitions has one item at most exactly if its items are all the same. -/
theorem length_le_one_iff_of_nodup {α : Type} [DecidableEq α] {l : List α} (h : l.Nodup) :
    l.length ≤ 1 ↔ ∀ a ∈ l, ∀ b ∈ l, a = b := by
  rw [← List.toFinset_card_of_nodup h, Finset.card_le_one]
  simp

section Level

variable (hnamed : tree.WellNamed) (hup : ∀ root ∈ roots, Component.up ∉ components root)
include hnamed hup

theorem components_scannedAt {file : SourceFile} (h : file ∈ scannedAt tree base c roots place) :
    components file.path = (Path.beginning file.path).spelling base place := by
  obtain ⟨hselect, rfl⟩ := mem_scannedAt_iff.1 h
  obtain ⟨root, hroot, hfinds⟩ := finds_of_mem_select hselect
  rw [hfinds.beginning_eq hnamed (hup root hroot), hfinds.components_eq hnamed (hup root hroot)]

/-- Paths that begin alike and lead to the same file are the same. -/
theorem nodup_beginnings : (beginnings (scannedAt tree base c roots place)).Nodup := by
  have hspelled : spelled (scannedAt tree base c roots place) =
      (beginnings (scannedAt tree base c roots place)).map (Beginning.spelling base place) := by
    rw [beginnings, List.map_map]
    exact List.map_congr_left fun file hfile => components_scannedAt hnamed hup hfile
  exact .of_map _ (hspelled ▸ nodup_spelled tree base c roots place)

theorem mem_beginnings_iff {b : Beginning} : b ∈ beginnings (scannedAt tree base c roots place) ↔
    ∃ root ∈ roots, LeadsTo tree base c root place ∧ Path.beginning root = b := by
  rw [beginnings, List.mem_map]
  constructor
  · rintro ⟨file, hfile, rfl⟩
    obtain ⟨hselect, hplace⟩ := mem_scannedAt_iff.1 hfile
    obtain ⟨root, hroot, hfinds⟩ := finds_of_mem_select hselect
    exact ⟨root, hroot, ⟨file, hfinds, hplace⟩, (hfinds.beginning_eq hnamed (hup root hroot)).symm⟩
  · rintro ⟨root, hroot, ⟨file, hfinds, hplace⟩, rfl⟩
    obtain ⟨first, hfirst, hcomponents⟩ :=
      List.mem_map.1 ((mem_spelled_iff hnamed).2 ⟨root, hroot, file, hfinds, hplace, rfl⟩)
    refine ⟨first, hfirst, ?_⟩
    rw [← hfinds.beginning_eq hnamed (hup root hroot), Path.beginning, Path.beginning, hcomponents]

/-- A file is scanned three times at most: paths can begin in three ways. -/
theorem length_scannedAt_le_three : (scannedAt tree base c roots place).length ≤ 3 := by
  have hsub : beginnings (scannedAt tree base c roots place) ⊆ [.top, .here, .bare] := by
    intro b _
    cases b <;> simp
  have hlength := (List.subperm_of_subset (nodup_beginnings hnamed hup) hsub).length_le
  rwa [beginnings, List.length_map] at hlength

/-- A file is scanned once at most exactly if the roots that lead to it begin alike. -/
theorem length_scannedAt_le_one_iff : (scannedAt tree base c roots place).length ≤ 1 ↔
    ∀ root ∈ roots, ∀ root' ∈ roots, LeadsTo tree base c root place → LeadsTo tree base c root' place →
      Path.beginning root = Path.beginning root' := by
  have hlength : (beginnings (scannedAt tree base c roots place)).length =
      (scannedAt tree base c roots place).length := List.length_map _
  rw [← hlength, length_le_one_iff_of_nodup (nodup_beginnings hnamed hup)]
  simp only [mem_beginnings_iff hnamed hup]
  constructor
  · intro h root hroot root' hroot' hleads hleads'
    exact h _ ⟨root, hroot, hleads, rfl⟩ _ ⟨root', hroot', hleads', rfl⟩
  · rintro h _ ⟨root, hroot, hleads, rfl⟩ _ ⟨root', hroot', hleads', rfl⟩
    exact h root hroot root' hroot' hleads hleads'

end Level

/-- No file is scanned twice exactly if the places of the scanned files are all different. -/
theorem nodup_places_iff : ((select tree base c roots).map (·.place)).Nodup ↔
    ∀ place, (scannedAt tree base c roots place).length ≤ 1 := by
  rw [List.nodup_iff_count_le_one]
  refine forall_congr' fun place => ?_
  rw [List.count, List.countP_map, List.countP_eq_length_filter]
  simp [scannedAt, Function.comp_def, beq_eq_decide]

/-- **A file is scanned once for each path that leads to it**, and its diagrams are reported and counted as often.  Where
no root goes up, it is three times at most, and it is once at most exactly if the roots that lead to the file all begin
alike. -/
theorem scanned_once_iff (hnamed : tree.WellNamed) (base : Place) (c : Configuration) (roots : List RawText)
    {files : List SourceFile} (hfiles : scannedAt tree base c roots place = files) :
    (spelled files).Nodup ∧
    (∀ steps, steps ∈ spelled files ↔
      ∃ root ∈ roots, ∃ file, Finds tree base c root file ∧ file.place = place ∧ components file.path = steps) ∧
    (∃ found, (∀ file ∈ files, diagrams tree file = found) ∧
      (reports tree files).flatMap (·.blocks) = (List.replicate files.length found).flatten) ∧
    ((∀ root ∈ roots, Component.up ∉ components root) →
      files.length ≤ 3 ∧
      (files.length ≤ 1 ↔ ∀ root ∈ roots, ∀ root' ∈ roots, LeadsTo tree base c root place →
        LeadsTo tree base c root' place → Path.beginning root = Path.beginning root') ∧
      ((∀ root ∈ roots, ∀ root' ∈ roots, Path.beginning root = Path.beginning root') →
        ((select tree base c roots).map (·.place)).Nodup)) := by
  subst hfiles
  refine ⟨nodup_spelled .., fun steps => mem_spelled_iff hnamed, ?_, fun hup =>
    ⟨length_scannedAt_le_three hnamed hup, length_scannedAt_le_one_iff hnamed hup, fun halike => ?_⟩⟩
  · obtain ⟨found, hfound⟩ := exists_diagrams hnamed base place c roots
    refine ⟨found, hfound, ?_⟩
    rw [flatMap_reports, List.flatMap_def, List.map_eq_replicate_iff.2 hfound]
  · refine nodup_places_iff.2 fun place => (length_scannedAt_le_one_iff hnamed hup).2 fun root hroot root' hroot' _ _ => ?_
    exact halike root hroot root' hroot'

/-- A file with a diagram, in a directory. -/
def nested : FileTree := ⟨[(["src", "app.ts"], "/* mermaid\npie */".toUTF8)], []⟩

theorem wellNamed_nested : nested.WellNamed := by
  intro entry hentry name hname
  obtain rfl := List.mem_singleton.1 hentry
  simp only [List.mem_cons, List.not_mem_nil, or_false] at hname
  rcases hname with rfl | rfl
  · exact ⟨by decide, by decide⟩
  · exact ⟨by decide, by decide⟩

/-- The file is scanned once from its directory and by its name, though it is met twice, and twice if one of the two
begins with a dot. -/
theorem scanned_once_iff_nested :
    nested.WellNamed ∧ (∀ root ∈ (["src", "src/app.ts"] : List RawText), Component.up ∉ components root) ∧
    ((select nested [] {} ["src", "src/app.ts"]).map (·.place)).Nodup ∧
    (scannedAt nested [] {} ["src", "src/app.ts"] ["src", "app.ts"]).length ≤ 1 ∧
    [.name "src", .name "app.ts"] ∈ spelled (scannedAt nested [] {} ["src", "src/app.ts"] ["src", "app.ts"]) ∧
    ¬ (scannedAt nested [] {} ["./src", "src/app.ts"] ["src", "app.ts"]).length ≤ 1 := by
  have hup : ∀ root ∈ (["src", "src/app.ts"] : List RawText), Component.up ∉ components root := by decide +kernel
  have hup' : ∀ root ∈ (["./src", "src/app.ts"] : List RawText), Component.up ∉ components root := by decide +kernel
  have halike : ∀ root ∈ (["src", "src/app.ts"] : List RawText), ∀ root' ∈ (["src", "src/app.ts"] : List RawText),
      Path.beginning root = Path.beginning root' := by decide +kernel
  have hfile : Finds nested [] {} "src/app.ts" ⟨"src/app.ts", ["src", "app.ts"], .typescript⟩ :=
    finds_of_mem_filesOfRoot (by decide +kernel)
  have hbelow : Finds nested [] {} "./src" ⟨"./src/app.ts", ["src", "app.ts"], .typescript⟩ :=
    finds_of_mem_filesOfRoot (by decide +kernel)
  obtain ⟨-, hspelled, -, honce⟩ := scanned_once_iff wellNamed_nested [] {} ["src", "src/app.ts"]
    (rfl : scannedAt nested [] {} _ ["src", "app.ts"] = _)
  obtain ⟨-, -, -, htwice⟩ := scanned_once_iff wellNamed_nested [] {} ["./src", "src/app.ts"]
    (rfl : scannedAt nested [] {} _ ["src", "app.ts"] = _)
  refine ⟨wellNamed_nested, hup, (honce hup).2.2 halike, (honce hup).2.1.2 ?_, (hspelled _).2 ?_, fun h => ?_⟩
  · exact fun root hroot root' hroot' _ _ => halike root hroot root' hroot'
  · exact ⟨_, by simp, _, hfile, rfl, by decide +kernel⟩
  · have hsame := (htwice hup').2.1.1 h "./src" (by simp) "src/app.ts" (by simp) ⟨_, hbelow, rfl⟩ ⟨_, hfile, rfl⟩
    exact absurd hsame (by decide +kernel)

/-- The file, by a path that begins with a dot and by one that does not. -/
def spelledTwice : List SourceFile :=
  [⟨"./src/app.ts", ["src", "app.ts"], .typescript⟩, ⟨"src/app.ts", ["src", "app.ts"], .typescript⟩]

/-- A file below the working directory that is named besides is scanned twice, and its diagram is counted twice. -/
theorem scanned_twice :
    (∀ root ∈ ([".", "src/app.ts"] : List RawText), (nested.locate? [] root).isSome = true) ∧
    scannedAt nested [] {} [".", "src/app.ts"] ["src", "app.ts"] = spelledTwice ∧
    Command.run nested [] toString ["scan", ".", "src/app.ts"] =
      .success ["./src/app.ts:1-2 [typescript]", "pie", "", "src/app.ts:1-2 [typescript]", "pie", ""]
        ["Found 2 diagrams in 2 of 2 files"] := by
  have hroots : ∀ root ∈ ([".", "src/app.ts"] : List RawText), (nested.locate? [] root).isSome = true := by decide +kernel
  have harguments : Request.ofArguments ["scan", ".", "src/app.ts"] = .ok (.scan { roots := [".", "src/app.ts"] }) := rfl
  have hselect : select nested [] {} [".", "src/app.ts"] = spelledTwice := by
    have hmet : met nested [] {} [".", "src/app.ts"] = spelledTwice := by decide +kernel
    have hsorted : spelledTwice.mergeSort byPath = spelledTwice := by
      apply List.mergeSort_of_pairwise
      exact List.pairwise_pair.2 (by decide +kernel)
    have hdiffer : samePath ⟨"./src/app.ts", ["src", "app.ts"], .typescript⟩
        ⟨"src/app.ts", ["src", "app.ts"], .typescript⟩ = false := by decide +kernel
    rw [select_eq, hmet, hsorted, spelledTwice, dropRepeated_cons, List.dropWhile_cons_of_neg (by rw [hdiffer]; simp),
      dropRepeated_cons]
    simp [dropRepeated]
  have hrun : run nested [] toString { roots := [".", "src/app.ts"] } =
      .ok (outcome nested spelledTwice (textLines (reports nested spelledTwice))) :=
    run_eq_ok_iff.2 ⟨{}, rfl, hroots, _, rfl, by rw [← hselect]; rfl⟩
  refine ⟨hroots, ?_, ?_⟩
  · rw [scannedAt, hselect]
    decide +kernel
  · rw [command_run harguments, hrun]
    decide +kernel

end Scan

end Marginalia
