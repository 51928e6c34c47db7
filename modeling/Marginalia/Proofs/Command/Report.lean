import Marginalia.Command.Run
import Marginalia.Proofs.Command.Selection
/-!
# What a scan reports

A scan is carried out if its configuration loads, all its roots exist and its reports can be shown (`run_eq_ok_iff`).
Shown as text they always can be; in JSON a path has to be text, and one that is none stops the whole scan
(`display_of_not_showable`).  What is shown are the reports of the selected files in their order.  A file has a report if
it can be read and parsed and holds a diagram (`report?_eq_some_iff`).
-/
namespace Marginalia

namespace Scan

/-- What a request asks to be scanned. -/
def rootsOf (request : ScanRequest) : List RawText := if request.roots.isEmpty then ["."] else request.roots

/-- The reports on the files that have one. -/
def reports (tree : FileTree) (files : List SourceFile) : List FileReport := files.filterMap (report? tree)

/-- The lines that show the blocks of a file, each with its place, its markup and an empty line. -/
def listing (path : RawText) (found : List Block) : List String :=
  found.flatMap fun block => [location path block, String.ofList block.code.markup, ""]

theorem textLines_eq (found : List FileReport) :
    textLines found = found.flatMap fun report => listing report.path report.blocks := rfl

/-! ## What can be shown -/

/-- Shown in JSON, the reports are about files whose paths are text. -/
def Showable (json : Bool) (found : List FileReport) : Prop :=
  json = true → ∀ report ∈ found, report.path.toString? ≠ none

section Display

variable (newId : Nat → String) {found : List FileReport}

theorem ofPath_of_ne_none {path : RawText} (h : path.toString? ≠ none) :
    ∃ text, path.toString? = some text ∧ Json.ofPath path = .ok (.string text) := by
  obtain ⟨text, htext⟩ := Option.ne_none_iff_exists'.1 h
  refine ⟨text, htext, ?_⟩
  rw [Json.ofPath, htext]

theorem exists_jsonOfReports : ∀ (next : Nat) {found : List FileReport},
    (∀ report ∈ found, report.path.toString? ≠ none) → ∃ items, jsonOfReports newId next found = .ok items
  | _, [], _ => ⟨[], rfl⟩
  | next, report :: found, h => by
    obtain ⟨hreport, hfound⟩ := List.forall_mem_cons.1 h
    obtain ⟨text, -, hpath⟩ := ofPath_of_ne_none hreport
    obtain ⟨items, hitems⟩ := exists_jsonOfReports (next + report.blocks.length) hfound
    rw [jsonOfReports, hpath, hitems]
    exact ⟨_, rfl⟩

/-- The first path that is no text leaves nothing to show. -/
theorem jsonOfReports_of_not_text : ∀ (next : Nat) {found : List FileReport},
    (∃ report ∈ found, report.path.toString? = none) → jsonOfReports newId next found = .error .pathNotUtf8
  | _, [], h => by
    obtain ⟨_, hmem, -⟩ := h
    cases hmem
  | next, report :: found, h => by
    by_cases hreport : report.path.toString? = none
    · rw [jsonOfReports, Json.ofPath, hreport]
      rfl
    · obtain ⟨text, -, hpath⟩ := ofPath_of_ne_none hreport
      have hfound : ∃ report ∈ found, report.path.toString? = none := by simpa [hreport] using h
      rw [jsonOfReports, hpath, jsonOfReports_of_not_text _ hfound]
      rfl

theorem exists_display {json : Bool} (h : Showable json found) : ∃ lines, display newId json found = .ok lines := by
  cases json with
  | false => exact ⟨_, rfl⟩
  | true =>
    obtain ⟨items, hitems⟩ := exists_jsonOfReports newId 0 (h rfl)
    rw [display, if_pos rfl, hitems]
    exact ⟨_, rfl⟩

theorem display_of_not_showable {json : Bool} (h : ¬ Showable json found) :
    display newId json found = .error .pathNotUtf8 := by
  unfold Showable at h
  push Not at h
  obtain ⟨rfl, hfound⟩ := h
  rw [display, if_pos rfl, jsonOfReports_of_not_text newId 0 hfound]
  rfl

variable {newId} in
theorem showable_of_display {json : Bool} {lines : List String} (h : display newId json found = .ok lines) :
    Showable json found := by
  by_contra hnot
  cases h.symm.trans (display_of_not_showable newId hnot)

end Display

/-! ## Runs -/

/-- What a finished scan leaves. -/
def outcome (tree : FileTree) (files : List SourceFile) (lines : List String) : Outcome :=
  .success lines [summary files (reports tree files)]

/-- A command line that asks for a scan is carried out as that scan. -/
theorem command_run {request : ScanRequest} {arguments : List RawText}
    (harguments : Request.ofArguments arguments = .ok (.scan request)) (tree : FileTree) (base : Place)
    (newId : Nat → String) : Command.run tree base newId arguments = .ofResult (run tree base newId request) := by
  rw [Command.run, harguments]
  rfl

section Run

variable {tree : FileTree} {base : Place} {newId : Nat → String} {request : ScanRequest}

theorem run_of_missing {c : Configuration} {missing : RawText}
    (hload : Configuration.load tree base request.config request.overrides = .ok c)
    (hfind : (rootsOf request).find? (fun root => (tree.locate? base root).isNone) = some missing) :
    run tree base newId request = .error (.notFound missing) := by
  unfold rootsOf at hfind
  unfold run
  rw [hload]
  dsimp only [Except.mapError, bind, Except.bind]
  rw [hfind]
  rfl

theorem run_of_present {c : Configuration}
    (hload : Configuration.load tree base request.config request.overrides = .ok c)
    (hfind : (rootsOf request).find? (fun root => (tree.locate? base root).isNone) = none) :
    run tree base newId request =
      ((display newId request.json (reports tree (select tree base c (rootsOf request)))).map
        (outcome tree (select tree base c (rootsOf request)))).mapError .json := by
  unfold rootsOf at hfind ⊢
  unfold run
  rw [hload]
  dsimp only [Except.mapError, bind, Except.bind]
  rw [hfind]
  unfold reports
  dsimp only
  cases display newId request.json _ <;> rfl

theorem find?_missing_eq_none_iff : (rootsOf request).find? (fun root => (tree.locate? base root).isNone) = none ↔
    ∀ root ∈ rootsOf request, (tree.locate? base root).isSome = true := by
  simp [List.find?_eq_none, Option.isSome_iff_ne_none]

/-- **A scan succeeds exactly if its configuration loads, its roots exist and its reports can be shown**, and shows the
reports on what is selected. -/
theorem run_eq_ok_iff {o : Outcome} : run tree base newId request = .ok o ↔
    ∃ c, Configuration.load tree base request.config request.overrides = .ok c ∧
      (∀ root ∈ rootsOf request, (tree.locate? base root).isSome = true) ∧
      ∃ lines, display newId request.json (reports tree (select tree base c (rootsOf request))) = .ok lines ∧
        o = outcome tree (select tree base c (rootsOf request)) lines := by
  cases hload : Configuration.load tree base request.config request.overrides with
  | error e =>
    have hrun : run tree base newId request = .error (.configuration e) := by
      unfold run
      rw [hload]
      rfl
    simp [hrun]
  | ok c =>
    rw [← find?_missing_eq_none_iff]
    cases hfind : (rootsOf request).find? fun root => (tree.locate? base root).isNone with
    | some missing => simp [run_of_missing hload hfind]
    | none =>
      rw [run_of_present hload hfind]
      cases hshown : display newId request.json (reports tree (select tree base c (rootsOf request))) with
      | error e => simp [hshown, Except.map, Except.mapError]
      | ok lines => simp [hshown, Except.map, Except.mapError, eq_comm]

/-- A report that cannot be shown stops the scan. -/
theorem run_of_not_showable {c : Configuration}
    (hload : Configuration.load tree base request.config request.overrides = .ok c)
    (hroots : ∀ root ∈ rootsOf request, (tree.locate? base root).isSome = true)
    (h : ¬ Showable request.json (reports tree (select tree base c (rootsOf request)))) :
    run tree base newId request = .error (.json .pathNotUtf8) := by
  rw [run_of_present hload (find?_missing_eq_none_iff.2 hroots), display_of_not_showable newId h]
  rfl

/-- A command line that asks for a scan and ends well has shown the reports. -/
theorem run_of_status {c : Configuration} {files : List SourceFile} {arguments : List RawText}
    (harguments : Request.ofArguments arguments = .ok (.scan request))
    (hstatus : (Command.run tree base newId arguments).status = 0)
    (hload : Configuration.load tree base request.config request.overrides = .ok c)
    (hfiles : select tree base c (rootsOf request) = files) :
    (∀ root ∈ rootsOf request, (tree.locate? base root).isSome = true) ∧
      ∃ lines, display newId request.json (reports tree files) = .ok lines ∧
        run tree base newId request = .ok (outcome tree files lines) := by
  rw [command_run harguments] at hstatus
  cases hrun : run tree base newId request with
  | error e =>
    rw [hrun] at hstatus
    cases hstatus
  | ok o =>
    obtain ⟨c', hload', hroots, lines, hlines, rfl⟩ := run_eq_ok_iff.1 hrun
    obtain rfl := Except.ok.inj (hload.symm.trans hload')
    rw [hfiles] at hlines ⊢
    exact ⟨hroots, lines, hlines, rfl⟩

end Run

theorem report?_of_parse {tree : FileTree} {file : SourceFile} {text : String} {found : List Block}
    (hread : tree.read file.place = .ok text) (hparse : Document.parse file.language text = .ok found) :
    report? tree file = if found = [] then none else some ⟨file.path, found⟩ := by
  unfold report?
  rw [hread]
  simp [Except.toOption, hparse]

/-- **A file has a report exactly if it can be read and parsed and holds a diagram.** -/
theorem report?_eq_some_iff {tree : FileTree} {file : SourceFile} {report : FileReport} :
    report? tree file = some report ↔ ∃ text found, tree.read file.place = .ok text ∧
      Document.parse file.language text = .ok found ∧ found ≠ [] ∧ report = ⟨file.path, found⟩ := by
  constructor
  · intro h
    cases hread : tree.read file.place with
    | error e => simp [report?, hread, Except.toOption] at h
    | ok text =>
      cases hparse : Document.parse file.language text with
      | error e => simp [report?, hread, hparse, Except.toOption] at h
      | ok found =>
        rw [report?_of_parse hread hparse] at h
        split at h
        · cases h
        · rename_i hne
          exact ⟨text, found, rfl, hparse, hne, (Option.some.inj h).symm⟩
  · rintro ⟨text, found, hread, hparse, hne, rfl⟩
    rw [report?_of_parse hread hparse, if_neg hne]

end Scan

end Marginalia
