import Marginalia.Ignore.Walk
import Marginalia.Proofs.FileTree
/-!
# What a walk reads

A walk reads the files that say what it leaves out, and those that lead to such a file; it knows them all by their names
(`ignoreNames`).  Of any other file it takes notice only that it is there, whatever its content
(`Ordinary.files_replace`).
-/
namespace Marginalia

open Marginalia.Path (EndsIn slash)

/-- The names of the files that say what a walk leaves out, or lead to such a file. -/
def ignoreNames : List RawText := [".ignore", ".gitignore", GitLink.fileName, "commondir", "exclude"]

/-- What lies at the place is not read by a walk. -/
def Ordinary (place : Place) : Prop := ∀ name ∈ ignoreNames, place.getLast? ≠ some name

/-- Files of these names are in no language. -/
theorem ignoreNames_plain : ∀ name ∈ ignoreNames,
    slash ∉ name ∧ Path.component? name = some (.name name) ∧ Path.extensionOfName? name = none := by
  decide +kernel

namespace Ordinary

variable {tree : FileTree} {base place : Place} {content : ByteArray} (hordinary : Ordinary place)
include hordinary

theorem fileAt?_replace {path name : RawText} (h : EndsIn path name) (hname : name ∈ ignoreNames) :
    (tree.replace place content).fileAt? base path = tree.fileAt? base path := by
  refine tree.fileAt?_replace content fun hlocate => ?_
  obtain ⟨hslash, hcomponent, -⟩ := ignoreNames_plain name hname
  exact hordinary name hname (FileTree.getLast?_of_locate? hlocate (h.fileName? hslash hcomponent))

theorem excludes?_replace (link : ByteArray) :
    GitLink.excludes? (tree.replace place content) base link = GitLink.excludes? tree base link := by
  have hcommon : EndsIn "commondir" "commondir" := Or.inl rfl
  have hinfo : EndsIn "info/exclude" "exclude" := Or.inr ⟨"info", by decide⟩
  unfold GitLink.excludes?
  cases GitLink.target? link with
  | none => rfl
  | some directory =>
    have hpointer : (tree.replace place content).fileAt? base (GitLink.pointerPath directory) =
        tree.fileAt? base (GitLink.pointerPath directory) :=
      hordinary.fileAt?_replace (hcommon.join directory) (by decide)
    simp only [Option.bind_eq_bind, Option.bind_some, hpointer]
    refine Option.bind_congr fun pointer _ => Option.bind_congr fun path hpath => ?_
    unfold GitLink.excludePath? at hpath
    obtain ⟨line, -, hpath⟩ := Option.bind_eq_some_iff.1 hpath
    obtain rfl := Option.some.inj hpath
    exact hordinary.fileAt?_replace (hinfo.join _) (by decide)

theorem ofTree_replace {name : RawText} (hname : name ∈ ignoreNames) :
    RuleTable.ofTree (tree.replace place content) name = RuleTable.ofTree tree name := by
  refine tree.filterMap_replace content fun old => ?_
  dsimp only
  rw [if_neg (hordinary name hname), if_neg (hordinary name hname)]

theorem ofGit_replace : RuleTable.ofGit (tree.replace place content) base = RuleTable.ofGit tree base := by
  unfold RuleTable.ofGit
  simp only [hordinary.excludes?_replace]
  refine tree.filterMap_replace content fun old => ?_
  have hsuffix : [GitLink.fileName, "info", "exclude"].isSuffixOf place = false := by
    refine Bool.eq_false_iff.2 fun h => ?_
    obtain ⟨before, rfl⟩ := List.isSuffixOf_iff_suffix.1 h
    exact hordinary "exclude" (by decide) (by simp)
  dsimp only
  rw [hsuffix, if_neg Bool.false_ne_true, if_neg Bool.false_ne_true, if_neg (hordinary GitLink.fileName (by decide)),
    if_neg (hordinary GitLink.fileName (by decide))]

theorem ignoreFiles_replace (options : WalkOptions) :
    IgnoreFiles.ofTree (tree.replace place content) base options = IgnoreFiles.ofTree tree base options := by
  unfold IgnoreFiles.ofTree
  rw [hordinary.ofTree_replace (by decide), hordinary.ofTree_replace (by decide), hordinary.ofGit_replace]

/-- **A walk yields the same files.** -/
theorem files_replace (options : WalkOptions) (root : WalkRoot) :
    Walk.files (tree.replace place content) base options root = Walk.files tree base options root := by
  unfold Walk.files
  rw [hordinary.ignoreFiles_replace]
  exact tree.filterMap_replace content fun old => rfl

end Ordinary

end Marginalia
