import Marginalia.Proofs.Command.Arguments
import Marginalia.Proofs.Command.Report
import Marginalia.Proofs.Ranges
/-!
# A file that is scanned, and its lines that are asked for

Both commands come to the same text in the same language (`Scannable`), and so to the same blocks.  A scan shows them
with their lines counted from one; a line that is asked for is counted from zero and compared with their ranges.  The
two agree on which blocks take a line (`At.block?_eq_find?`), as far as lines can be counted.  No text that parses has
so many lines that one of them could not be asked for.
-/
namespace Marginalia

open Document (blocks maximumLength)

/-- The block is shown with an interval of lines, counted from one, that contains this line. -/
def Block.Shows (block : Block) (line : Nat) : Prop :=
  block.range.first.shown ≤ line ∧ line ≤ block.range.last.shown

instance (block : Block) (line : Nat) : Decidable (block.Shows line) := inferInstanceAs (Decidable (_ ∧ _))

theorem Block.contains_iff_shows {block : Block} {line : LineNumber} :
    block.range.contains line = true ↔ block.Shows line.shown := by
  rw [LineRange.contains_iff]
  exact and_congr Nat.succ_le_succ_iff.symm Nat.succ_le_succ_iff.symm

/-- A text that is not too long has no more lines than can be asked for. -/
theorem Document.shown_le_maximumLine {language : Language} {text : String} {found : List Block}
    (h : Document.parse language text = .ok found) :
    ∀ block ∈ found, block.range.last.shown ≤ Argument.maximumLine := by
  intro block hblock
  rw [← text.ofList_toList] at h
  obtain ⟨hlen, rfl⟩ := parse_eq_ok_iff.1 h
  obtain ⟨style, -, s, hs, -, -, hlast⟩ := exists_candidate hlen hblock
  obtain ⟨passed, after, ht, hbefore, -⟩ := CommentStyle.sightings_sound hs
  have hcount : (s.before ++ s.whole).count '\n' ≤ text.toList.length := by
    refine List.count_le_length.trans ?_
    rw [ht, hbefore, List.nil_append, ← List.append_assoc]
    exact (List.prefix_append _ _).length_le
  unfold LineNumber.shown Argument.maximumLine
  unfold maximumLength at hlen
  omega

/-- The block that answers for a line is the first one that is shown with it. -/
theorem At.block?_eq_find? (blocks : List Block) {line : Nat} (hpos : 1 ≤ line) (hmax : line ≤ Argument.maximumLine) :
    block? blocks line = blocks.find? fun block => decide (block.Shows line) := by
  obtain ⟨n, rfl⟩ := Nat.exists_eq_add_of_le' hpos
  have hlt : n < 4294967296 := by
    unfold Argument.maximumLine at hmax
    omega
  rw [block?, LineNumber.ofCount, dif_pos hlt]
  show blocks.find? (fun block => block.range.contains ⟨n, hlt⟩) = _
  congr 1
  funext block
  exact Bool.eq_iff_iff.2 (Block.contains_iff_shows.trans decide_eq_true_iff.symm)

/-- A file that both commands can read, in a language that the configuration knows it by. -/
structure Scannable (tree : FileTree) (base : Place) (config : Option RawText) (file : RawText) (text : String)
    (language : Language) : Prop where
  located : ∃ place, tree.locate? base file = some place ∧ tree.read place = .ok text
  known : ∃ c, Configuration.load tree base config {} = .ok c ∧ c.languageOf? file = some language

namespace Scannable

variable {tree : FileTree} {base : Place} {config : Option RawText} {file : RawText} {text : String} {language : Language}

theorem file_ne_nil (h : Scannable tree base config file text language) : file ≠ [] := by
  obtain ⟨place, hplace, -⟩ := h.located
  rintro rfl
  cases hplace

theorem config_ne_nil (h : Scannable tree base config file text language) : config ≠ some [] := by
  obtain ⟨c, hload, -⟩ := h.known
  rintro rfl
  cases hload

theorem select_file {c : Configuration} {place : Place} (hplace : tree.locate? base file = some place)
    (hread : tree.read place = .ok text) (hlanguage : c.languageOf? file = some language) :
    Scan.select tree base c [file] = [⟨file, place, language⟩] := by
  have hfile : (tree.file? place).isSome = true := by
    unfold FileTree.read at hread
    split at hread
    · rename_i hfile
      rw [hfile]
      rfl
    · cases hread
  apply Scan.select_of_met
  rw [Scan.met, List.flatMap_cons, List.flatMap_nil, List.append_nil, Scan.filesOfRoot_file ⟨hplace, hfile⟩, hlanguage]
  rfl

variable {found : List Block}

/-- **A scan of the file lists its blocks.** -/
theorem scan (h : Scannable tree base config file text language) (hfound : Document.parse language text = .ok found)
    (newId : Nat → String) :
    ∃ message, Scan.run tree base newId { roots := [file], config } =
      .ok (.success (Scan.listing file found) message) := by
  obtain ⟨place, hplace, hread⟩ := h.located
  obtain ⟨c, hload, hlanguage⟩ := h.known
  have hroots : ∀ root ∈ [file], (tree.locate? base root).isSome = true := by
    intro root hroot
    obtain rfl := List.mem_singleton.1 hroot
    rw [hplace]
    rfl
  have hreport : Scan.report? tree ⟨file, place, language⟩ = if found = [] then none else some ⟨file, found⟩ :=
    Scan.report?_of_parse hread hfound
  have hlines : Scan.textLines (Scan.reports tree [⟨file, place, language⟩]) = Scan.listing file found := by
    rw [Scan.reports, List.filterMap_cons, hreport, List.filterMap_nil]
    by_cases hne : found = []
    · rw [if_pos hne, hne]
      rfl
    · rw [if_neg hne, Scan.textLines_eq, List.flatMap_singleton]
  have hrun : Scan.run tree base newId { roots := [file], config } =
      .ok (Scan.outcome tree (Scan.select tree base c [file])
        (Scan.textLines (Scan.reports tree (Scan.select tree base c [file])))) :=
    Scan.run_eq_ok_iff.2 ⟨c, hload, hroots, _, rfl, rfl⟩
  rw [hrun, select_file hplace hread hlanguage, hlines]
  exact ⟨_, rfl⟩

/-- **A line is answered for by the first block that is shown with it.** -/
theorem answer (h : Scannable tree base config file text language) (hfound : Document.parse language text = .ok found)
    {line : Nat} (hpos : 1 ≤ line) (hmax : line ≤ Argument.maximumLine) :
    At.run tree base { file, line, config } = match found.find? fun block => decide (block.Shows line) with
      | some block => .ok (.success [String.ofList block.code.markup] [])
      | none => .error (.noDiagram file line) := by
  obtain ⟨place, hplace, hread⟩ := h.located
  obtain ⟨c, hload, hlanguage⟩ := h.known
  rw [← At.block?_eq_find? found hpos hmax]
  unfold At.run At.language
  rw [hplace, hload]
  dsimp only [Except.mapError, bind, Except.bind, pure, Except.pure]
  rw [hlanguage]
  dsimp only
  rw [hread]
  dsimp only
  rw [hfound]
  dsimp only
  cases hblock : At.block? found line <;> rfl

theorem run_scan (h : Scannable tree base config file text language)
    (hfound : Document.parse language text = .ok found) {newId : Nat → String} {arguments : List RawText}
    (harguments : Request.ofArguments arguments = .ok (.scan { roots := [file], config })) :
    ∃ message, Command.run tree base newId arguments = .success (Scan.listing file found) message := by
  obtain ⟨message, hscan⟩ := h.scan hfound newId
  refine ⟨message, ?_⟩
  rw [Scan.command_run harguments, hscan]
  rfl

theorem run_at (h : Scannable tree base config file text language) (hfound : Document.parse language text = .ok found)
    {line : Nat} (hpos : 1 ≤ line) (hmax : line ≤ Argument.maximumLine) {newId : Nat → String} {arguments : List RawText}
    (harguments : Request.ofArguments arguments = .ok (.at { file, line, config })) :
    Command.run tree base newId arguments = match found.find? fun block => decide (block.Shows line) with
      | some block => .success [String.ofList block.code.markup] []
      | none => .failure (.noDiagram file line) := by
  rw [Command.run, harguments]
  show Outcome.ofResult (At.run tree base { file, line, config }) = _
  rw [h.answer hfound hpos hmax]
  cases found.find? fun block => decide (block.Shows line) <;> rfl

end Scannable

/-- **A scan and a question for a line agree.**  A file that both can read is listed with its blocks.  A line that can
be asked for is answered with the markup of the first block listed whose interval contains it, and with a failure if
there is none; and every line of every interval listed can be asked for. -/
theorem scan_at_agree {tree : FileTree} {base : Place} {config : Option RawText} {file : RawText} {text : String}
    {language : Language} (h : Scannable tree base config file text language) (hlen : text.length ≤ maximumLength) :
    ∃ found, Document.parse language text = .ok found ∧
      (∃ arguments, Request.ofArguments arguments = .ok (.scan { roots := [file], config })) ∧
      (∀ newId arguments, Request.ofArguments arguments = .ok (.scan { roots := [file], config }) →
        (Command.run tree base newId arguments).status = 0 ∧
        (Command.run tree base newId arguments).output = Outcome.unlines (Scan.listing file found)) ∧
      (∀ line, 1 ≤ line → line ≤ Argument.maximumLine →
        (∃ arguments, Request.ofArguments arguments = .ok (.at { file, line, config })) ∧
        ∀ newId arguments, Request.ofArguments arguments = .ok (.at { file, line, config }) →
          (∀ earlier block later, found = earlier ++ block :: later → block.Shows line →
            (∀ other ∈ earlier, ¬ other.Shows line) →
            Command.run tree base newId arguments = .success [String.ofList block.code.markup] []) ∧
          ((∀ block ∈ found, ¬ block.Shows line) →
            (Command.run tree base newId arguments).status = 1 ∧ (Command.run tree base newId arguments).output = "")) ∧
      ∀ block ∈ found, ∀ line, block.Shows line → 1 ≤ line ∧ line ≤ Argument.maximumLine ∧
        ∀ newId arguments, Request.ofArguments arguments = .ok (.at { file, line, config }) →
          ∃ first ∈ found, first.Shows line ∧
            Command.run tree base newId arguments = .success [String.ofList first.code.markup] [] := by
  obtain ⟨found, hfound⟩ : ∃ found, Document.parse language text = .ok found := by
    have hparse := Document.parse_of_length_le language (show text.toList.length ≤ maximumLength from hlen)
    rw [text.ofList_toList] at hparse
    exact ⟨_, hparse⟩
  refine ⟨found, hfound, ⟨_, Request.ofArguments_scan h.config_ne_nil h.file_ne_nil⟩,
    fun newId arguments harguments => ?_,
    fun line hpos hmax => ⟨⟨_, Request.ofArguments_at h.config_ne_nil h.file_ne_nil hpos hmax⟩,
      fun newId arguments harguments => ⟨fun earlier block later hsplit hshows hearlier => ?_, fun hnone => ?_⟩⟩,
    fun block hblock line hshows => ?_⟩
  · obtain ⟨message, hrun⟩ := h.run_scan hfound harguments
    rw [hrun]
    exact ⟨rfl, rfl⟩
  · have hfirst : found.find? (fun block => decide (block.Shows line)) = some block :=
      List.find?_eq_some_iff_append.2 ⟨decide_eq_true hshows, earlier, later, hsplit, fun other hother => by
        rw [decide_eq_false (hearlier other hother), Bool.not_false]⟩
    rw [h.run_at hfound hpos hmax harguments, hfirst]
  · have hfirst : found.find? (fun block => decide (block.Shows line)) = none :=
      List.find?_eq_none.2 fun block hblock => mt of_decide_eq_true (hnone block hblock)
    rw [h.run_at hfound hpos hmax harguments, hfirst]
    exact ⟨rfl, rfl⟩
  · have hpos : 1 ≤ line := (Nat.le_add_left 1 _).trans hshows.1
    have hmax : line ≤ Argument.maximumLine := hshows.2.trans (Document.shown_le_maximumLine hfound block hblock)
    refine ⟨hpos, hmax, fun newId arguments harguments => ?_⟩
    obtain ⟨first, hfirst⟩ : ∃ first, found.find? (fun block => decide (block.Shows line)) = some first :=
      Option.isSome_iff_exists.1 (List.find?_isSome.2 ⟨block, hblock, decide_eq_true hshows⟩)
    refine ⟨first, List.mem_of_find?_eq_some hfirst, by simpa using List.find?_some hfirst, ?_⟩
    rw [h.run_at hfound hpos hmax harguments, hfirst]

/-- Two diagrams whose comments share a line, behind a line without a diagram. -/
def neighbours : String := "\n/* mermaid\npie */ /* mermaid\ngantt */\n"

/-- A directory with one file. -/
def withNeighbours : FileTree := ⟨[(["a.js"], neighbours.toUTF8)], []⟩

theorem scannable_neighbours : Scannable withNeighbours [] none "a.js" neighbours .javascript := by
  refine ⟨⟨["a.js"], by decide +kernel, ?_⟩, {}, rfl, by decide +kernel⟩
  have hfile : withNeighbours.file? ["a.js"] = some neighbours.toUTF8 := rfl
  have hdecode : String.fromUTF8? neighbours.toUTF8 = some neighbours := dif_pos neighbours.isValidUTF8
  rw [FileTree.read, hfile]
  dsimp only
  rw [hdecode]

theorem scan_at_agree_neighbours :
    neighbours.length ≤ maximumLength ∧ Scannable withNeighbours [] none "a.js" neighbours .javascript ∧
    ∃ first second, Document.parse .javascript neighbours = .ok [first, second] ∧
      first.code.markup = "pie".toList ∧ second.code.markup = "gantt".toList ∧
      (Command.run withNeighbours [] toString ["scan", "--", "a.js"]).output =
        Outcome.unlines (Scan.listing "a.js" [first, second]) ∧
      (Command.run withNeighbours [] toString ["at", "--", "a.js", "1"]).status = 1 ∧
      first.Shows 3 ∧ second.Shows 3 ∧
      Command.run withNeighbours [] toString ["at", "--", "a.js", "3"] = .success [String.ofList first.code.markup] [] ∧
      Command.run withNeighbours [] toString ["at", "--", "a.js", "4"] =
        .success [String.ofList second.code.markup] [] := by
  have hlen : neighbours.length ≤ maximumLength := by decide +kernel
  obtain ⟨found, hfound, -, hscan, hat, -⟩ := scan_at_agree scannable_neighbours hlen
  have hparts : found.map (fun b => (b.code.markup, b.range.first.value, b.range.last.value)) =
      [("pie".toList, 1, 2), ("gantt".toList, 2, 3)] := by
    rw [← neighbours.ofList_toList] at hfound
    rw [(Document.parse_eq_ok_iff.1 hfound).2]
    decide +kernel
  obtain ⟨first, second, rfl⟩ := List.length_eq_two.1 (show found.length = 2 by simpa using congrArg List.length hparts)
  simp only [List.map_cons, List.map_nil, List.cons.injEq, Prod.mk.injEq] at hparts
  obtain ⟨⟨hpie, hfirst, hlast⟩, ⟨hgantt, hfirst', hlast'⟩, -⟩ := hparts
  have hshows : ∀ line, first.Shows line ↔ 2 ≤ line ∧ line ≤ 3 := fun line => by
    rw [Block.Shows, LineNumber.shown, LineNumber.shown, hfirst, hlast]
  have hshows' : ∀ line, second.Shows line ↔ 3 ≤ line ∧ line ≤ 4 := fun line => by
    rw [Block.Shows, LineNumber.shown, LineNumber.shown, hfirst', hlast']
  refine ⟨hlen, scannable_neighbours, first, second, hfound, hpie, hgantt, ?_, ?_, ?_, ?_, ?_, ?_⟩
  · exact (hscan toString ["scan", "--", "a.js"] rfl).2
  · have hnone : ∀ block ∈ [first, second], ¬ block.Shows 1 := by simp [hshows, hshows']
    exact (((hat 1 (by decide) (by decide)).2 toString ["at", "--", "a.js", "1"] rfl).2 hnone).1
  · simp [hshows]
  · simp [hshows']
  · exact ((hat 3 (by decide) (by decide)).2 toString ["at", "--", "a.js", "3"] rfl).1 [] first [second] rfl
      (by simp [hshows]) (by simp)
  · exact ((hat 4 (by decide) (by decide)).2 toString ["at", "--", "a.js", "4"] rfl).1 [first] second [] rfl
      (by simp [hshows']) (by simp [hshows])

end Marginalia
