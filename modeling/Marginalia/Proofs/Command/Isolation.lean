import Marginalia.Proofs.Command.Report
import Marginalia.Proofs.Document
import Marginalia.Proofs.Ignore.Walk
/-!
# Files do not influence each other

A file that is scanned is in a language, so it is none of those that a walk reads (`Finds.ordinary`).  Unless it is the
settings file, another content changes nothing but its own report: the configuration and the selection stay the same,
and so does every other file's report.  What a scan shows is put together from the reports one by one (`Shown`), in both
forms, so nothing else moves.  There is one way in which a file can take the others down: in JSON a report on a path that
is no text stops the whole scan (`Stops`).
-/
namespace Marginalia

namespace Scan

variable {tree : FileTree} {base place : Place} {c : Configuration}

/-! ## What is selected -/

theorem extensionOfName?_of_languageOf? {path : RawText} {language : Language} (h : c.languageOf? path = some language) :
    ∃ name ext, Path.fileName? path = some name ∧ Path.extensionOfName? name = some ext := by
  unfold Configuration.languageOf? Path.extension? at h
  obtain ⟨ext, hext, -⟩ := Option.bind_eq_some_iff.1 h
  obtain ⟨name, hname, hext⟩ := Option.bind_eq_some_iff.1 hext
  exact ⟨name, ext, hname, hext⟩

theorem mem_files_of_mem_walk {options : WalkOptions} {root : WalkRoot} {below : Place}
    (h : below ∈ Walk.files tree base options root) :
    below ≠ [] ∧ (tree.file? (root.place ++ below)).isSome = true := by
  obtain ⟨⟨file, content⟩, hmem, hbelow⟩ := List.mem_filterMap.1 h
  dsimp only at hbelow
  split at hbelow
  · rename_i hreached
    obtain rfl := Option.some.inj hbelow
    simp only [Bool.and_eq_true, Bool.not_eq_true', List.isEmpty_eq_false_iff] at hreached
    obtain ⟨⟨hbegins, hne⟩, -⟩ := hreached
    refine ⟨hne, ?_⟩
    obtain ⟨rest, rfl⟩ := List.isPrefixOf_iff_prefix.1 hbegins
    rw [List.drop_left, FileTree.file?, Option.isSome_map]
    exact List.find?_isSome.2 ⟨_, hmem, BEq.rfl⟩
  · cases hbelow

/-- A file that is selected is there. -/
theorem Finds.is_file {root : RawText} {file : SourceFile} (h : Finds tree base c root file) :
    (tree.file? file.place).isSome = true := by
  cases h with
  | named hnames _ => exact hnames.is_file
  | walked hwalks _ _ => exact (mem_files_of_mem_walk hwalks.yielded).2

/-- **A file that is selected is not read by a walk.** -/
theorem Finds.ordinary {root : RawText} {file : SourceFile} (h : Finds tree base c root file) : Ordinary file.place := by
  intro special hspecial hlast
  obtain ⟨hslash, hcomponent, hextension⟩ := ignoreNames_plain special hspecial
  have hname : Path.fileName? file.path = some special := by
    cases h with
    | named hnames hlanguage =>
      obtain ⟨name, -, hname, -⟩ := extensionOfName?_of_languageOf? hlanguage
      rw [hname, ← FileTree.getLast?_of_locate? hnames.located hname]
      exact hlast
    | walked hwalks _ hlanguage =>
      have hne := (mem_files_of_mem_walk hwalks.yielded).1
      dsimp only at hlast
      rw [List.getLast?_append_of_ne_nil _ hne] at hlast
      exact (Path.endsIn_descend hlast root).fileName? hslash hcomponent
  obtain ⟨name, ext, hname', hext⟩ := extensionOfName?_of_languageOf? h.languageOf?
  obtain rfl := Option.some.inj (hname.symm.trans hname')
  cases hextension.symm.trans hext

/-- **The same files are selected.** -/
theorem select_replace (tree : FileTree) (base : Place) (content : ByteArray) (hordinary : Ordinary place)
    (c : Configuration) (roots : List RawText) :
    select (tree.replace place content) base c roots = select tree base c roots := by
  have hroot : filesOfRoot (tree.replace place content) base c = filesOfRoot tree base c := by
    funext root
    unfold filesOfRoot
    simp only [FileTree.locate?_replace, FileTree.isSome_file?_replace, hordinary.files_replace]
  rw [select, select, hroot]

end Scan

namespace Configuration

variable {tree : FileTree} {base place : Place} (content : ByteArray)

/-- The place of the settings file: the one that is named, or else the one that is found. -/
def settingsPlace? (tree : FileTree) (base : Place) (named : Option RawText) : Option Place :=
  named.elim (discover? tree base) (tree.locate? base)

theorem discover?_replace : discover? (tree.replace place content) base = discover? tree base := by
  unfold discover?
  simp only [FileTree.isDirectory_replace, FileTree.isSome_file?_replace]

theorem load_replace {named : Option RawText} (h : settingsPlace? tree base named ≠ some place) (overrides : Overrides) :
    load (tree.replace place content) base named overrides = load tree base named overrides := by
  have hfile : ∀ path other, other ≠ place →
      ofFile (tree.replace place content) path other = ofFile tree path other := by
    intro path other hother
    rw [ofFile, ofFile, FileTree.read_replace_of_ne tree content hother]
  unfold load
  cases named with
  | some path =>
    dsimp only
    rw [FileTree.locate?_replace]
    cases hplace : tree.locate? base path with
    | none => rfl
    | some other =>
      dsimp only
      rw [hfile path other fun hother => h (hplace.trans (congrArg some hother))]
  | none =>
    dsimp only
    rw [discover?_replace]
    cases hplace : discover? tree base with
    | none => rfl
    | some other =>
      dsimp only
      rw [hfile _ other fun hother => h (hplace.trans (congrArg some hother))]

end Configuration

/-! ## What is shown -/

namespace Json

mutual

/-- The value without what stands under the key `id`, at any depth. -/
def withoutIds : Json → Json
  | .number n => .number n
  | .string s => .string s
  | .array items => .array (itemsWithoutIds items)
  | .object fields => .object (fieldsWithoutIds fields)

def itemsWithoutIds : List Json → List Json
  | [] => []
  | item :: items => withoutIds item :: itemsWithoutIds items

def fieldsWithoutIds : List (String × Json) → List (String × Json)
  | [] => []
  | (key, value) :: fields =>
    if key = "id" then fieldsWithoutIds fields else (key, withoutIds value) :: fieldsWithoutIds fields

end

theorem itemsWithoutIds_eq_map : ∀ items : List Json, itemsWithoutIds items = items.map withoutIds
  | [] => by rw [itemsWithoutIds, List.map_nil]
  | item :: items => by rw [itemsWithoutIds, List.map_cons, itemsWithoutIds_eq_map items]

end Json

namespace Scan

/-- The value that shows a block, without its identifier. -/
def describeBlock (block : Block) : Json :=
  .object [
    ("code", .string (String.ofList block.code.markup)),
    ("range", .object [
      ("start", .number block.range.first.value),
      ("end", .number block.range.last.value)]),
    ("language", .string block.language.id)]

/-- The value that shows a report, without identifiers. -/
def describe (report : FileReport) : Except JsonError Json := do
  let path ← Json.ofPath report.path
  return .object [("path", path), ("blocks", .array (report.blocks.map describeBlock))]

theorem withoutIds_jsonOfBlock (id : String) (block : Block) :
    (jsonOfBlock id block).withoutIds = describeBlock block := by
  simp [jsonOfBlock, describeBlock, Json.withoutIds, Json.fieldsWithoutIds]

theorem map_withoutIds_blocks (newId : Nat → String) (next : Nat) (blocks : List Block) :
    ((blocks.zipIdx next).map fun (block, n) => jsonOfBlock (newId n) block).map Json.withoutIds =
      blocks.map describeBlock := by
  conv => rhs; rw [← List.zipIdx_map_fst next blocks, List.map_map]
  rw [List.map_map]
  exact List.map_congr_left fun entry _ => withoutIds_jsonOfBlock (newId entry.2) entry.1

theorem mapM_describe (newId : Nat → String) : ∀ (next : Nat) (found : List FileReport),
    found.mapM describe = (jsonOfReports newId next found).map fun items => items.map Json.withoutIds
  | _, [] => rfl
  | next, report :: found => by
    have hblocks := map_withoutIds_blocks newId next report.blocks
    rw [List.mapM_cons, mapM_describe newId (next + report.blocks.length) found, jsonOfReports, describe, Json.ofPath]
    cases report.path.toString? with
    | none => rfl
    | some text =>
      cases jsonOfReports newId (next + report.blocks.length) found with
      | error e => rfl
      | ok items =>
        simp [Except.map, bind, Except.bind, pure, Except.pure, Json.withoutIds, Json.fieldsWithoutIds,
          Json.itemsWithoutIds_eq_map, hblocks]

/-- What a finished scan leaves shows the reports on the files, one after the other, and counts the files. -/
structure Shown (tree : FileTree) (json : Bool) (files : List SourceFile) (o : Outcome) : Prop where
  status : o.status = 0
  text : json = false → o.output = Outcome.unlines (files.flatMap fun file =>
    (report? tree file).toList.flatMap fun report => listing report.path report.blocks)
  values : json = true → ∃ items, o.output = Outcome.unlines [Json.render 0 (.array items)] ∧
    (files.filterMap (report? tree)).mapM describe = .ok (items.map Json.withoutIds)
  counted : o.message = Outcome.unlines [summary files (reports tree files)]

theorem shown_outcome {tree : FileTree} {newId : Nat → String} {json : Bool} {files : List SourceFile}
    {lines : List String} (h : display newId json (reports tree files) = .ok lines) :
    Shown tree json files (outcome tree files lines) := by
  refine ⟨rfl, fun hjson => ?_, fun hjson => ?_, rfl⟩
  · have htext : textLines (reports tree files) = files.flatMap fun file =>
        (report? tree file).toList.flatMap fun report => listing report.path report.blocks := by
      rw [textLines_eq, reports, List.filterMap_eq_flatMap_toList, List.flatMap_assoc]
    rw [display, hjson, if_neg Bool.false_ne_true, htext] at h
    obtain rfl := Except.ok.inj h
    rfl
  · rw [display, hjson, if_pos rfl] at h
    have hdescribe := mapM_describe newId 0 (reports tree files)
    cases hitems : jsonOfReports newId 0 (reports tree files) with
    | error e =>
      rw [hitems] at h
      cases h
    | ok items =>
      rw [hitems] at h hdescribe
      obtain rfl := Except.ok.inj h
      exact ⟨items, rfl, hdescribe⟩

/-! ## One file with another content -/

section Replace

variable {tree : FileTree} {base place : Place} {c : Configuration} {newId : Nat → String} {arguments : List RawText}
  {request : ScanRequest} {files : List SourceFile} (content : ByteArray)

theorem report?_replace_of_ne {file : SourceFile} (h : file.place ≠ place) :
    report? (tree.replace place content) file = report? tree file := by
  rw [report?, report?, FileTree.read_replace_of_ne tree content h]

/-- With this content the file is reported, with these blocks. -/
def Yields (file : SourceFile) (content : ByteArray) (found : List Block) : Prop :=
  ∃ text, String.fromUTF8? content = some text ∧ text.length ≤ Document.maximumLength ∧
    Document.parse file.language text = .ok found ∧ found ≠ []

/-- With this content the file at the place is reported by a path that is no text, and in JSON. -/
def Stops (json : Bool) (files : List SourceFile) (place : Place) (content : ByteArray) : Prop :=
  json = true ∧ ∃ file ∈ files, file.place = place ∧ file.path.toString? = none ∧ ∃ found, Yields file content found

/-- The report on the file that is replaced is about its new content. -/
theorem report?_replace_self_iff {file : SourceFile} (hfile : (tree.file? file.place).isSome = true)
    {report : FileReport} : report? (tree.replace file.place content) file = some report ↔
      ∃ found, Yields file content found ∧ report = ⟨file.path, found⟩ := by
  rw [report?_eq_some_iff, exists_comm]
  refine exists_congr fun found => ?_
  constructor
  · rintro ⟨text, hread, hparse, hne, rfl⟩
    have hlength : text.length ≤ Document.maximumLength := by
      have hlist := hparse
      rw [← text.ofList_toList] at hlist
      exact (Document.parse_eq_ok_iff.1 hlist).1
    exact ⟨⟨text, (FileTree.read_replace_self_iff tree content hfile).1 hread, hlength, hparse, hne⟩, rfl⟩
  · rintro ⟨⟨text, htext, -, hparse, hne⟩, rfl⟩
    exact ⟨text, (FileTree.read_replace_self_iff tree content hfile).2 htext, hparse, hne, rfl⟩

/-- Reports that could be shown still can, unless the new one stops the scan. -/
theorem showable_replace_iff {json : Bool} (hfound : ∀ file ∈ files, (tree.file? file.place).isSome = true)
    (h : Showable json (reports tree files)) :
    Showable json (reports (tree.replace place content) files) ↔ ¬ Stops json files place content := by
  constructor
  · rintro hshowable ⟨hjson, file, hfile, rfl, hpath, found, hyields⟩
    have hreport := (report?_replace_self_iff content (hfound file hfile)).2 ⟨found, hyields, rfl⟩
    exact hshowable hjson _ (List.mem_filterMap.2 ⟨file, hfile, hreport⟩) hpath
  · intro hstops hjson report hreport hpath
    obtain ⟨file, hfile, hreport⟩ := List.mem_filterMap.1 hreport
    by_cases hplace : file.place = place
    · subst hplace
      obtain ⟨found, hyields, rfl⟩ := (report?_replace_self_iff content (hfound file hfile)).1 hreport
      exact hstops ⟨hjson, file, hfile, rfl, hpath, found, hyields⟩
    · rw [report?_replace_of_ne content hplace] at hreport
      exact h hjson report (List.mem_filterMap.2 ⟨file, hfile, hreport⟩) hpath

end Replace

/-- Two files with a diagram each. -/
def twoDiagrams : FileTree :=
  ⟨[(["a.js"], "/* mermaid\npie */".toUTF8), (["b.go"], "/* mermaid\ngantt */".toUTF8)], []⟩

/-- A content that is not text. -/
def garbled : ByteArray := ⟨#[0xff]⟩

/-- A name that is no text: its first byte begins no character. -/
def strayName : RawText := 0xff :: RawText.ofString ".ts"

/-- A directory with a file of that name. -/
def stray : FileTree := ⟨[([strayName], "export const a = 1;\n".toUTF8)], []⟩

/-- How a scan of the directory comes to the file. -/
def strayFile : SourceFile := ⟨"./" ++ strayName, [strayName], .typescript⟩

/-- That directory, once there is a diagram in the file. -/
def strayDiagram : FileTree := stray.replace [strayName] "/**\n * mermaid\n * graph TD\n */\n".toUTF8

end Scan

end Marginalia
