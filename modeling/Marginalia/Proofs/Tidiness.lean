import Marginalia.Proofs.Diagram.Extract
import Marginalia.Proofs.Tracing
/-!
# What the code of a block looks like

The code of every block is tidy: no white space stands around it or at the end of a line, and a diagram is either
nowhere in it or begins with its first line and goes on to its last (`Diagram.Tidy`).  The lines are trimmed and moved
before the diagram is looked for, and the ends are trimmed behind it.  Neither makes a start, a heading or a blank
line that the search did not see, since all three are decided by what remains of a line without the white space around
it (`Diagram.tidy_extract`).
-/
namespace Marginalia

open Document (blocks code? maximumLength)
open Text (joinLines splitLines trim trimEnd trimStart)

namespace Text

theorem trimEnd_joinLines_ne_nil {line : Text} {lines : List Text} (hline : line ∈ lines)
    (h : isAllBlank line = false) : trimEnd (joinLines lines) ≠ [] := by
  intro hnil
  obtain ⟨gap, hgap, hjoin⟩ := exists_trimEnd (joinLines lines)
  rw [hnil, List.nil_append] at hjoin
  have hblank : isAllBlank line = true :=
    List.all_eq_true.2 fun c hc => hgap c (hjoin ▸ (infix_joinLines_of_mem hline).subset hc)
  rw [h] at hblank
  cases hblank

end Text

namespace Diagram

/-- The first line of the markup starts a diagram. -/
def Started (markup : Text) : Prop := ∃ first rest, splitLines markup = first :: rest ∧ isStart first.trim = true

/-- Markup without white space around it or at the end of a line, in which a diagram starts with the first line or
nowhere, and goes on to the end if it starts. -/
structure Tidy (markup : Text) : Prop where
  no_blank_before : markup.head?.any isBlank = false
  no_blank_behind : markup.getLast?.any isBlank = false
  no_trailing_blank : ∀ line ∈ splitLines markup, line.getLast?.any isBlank = false
  starts_first : (∃ line ∈ splitLines markup, isStart line.trim = true) ↔ Started markup
  no_heading : Started markup → ∀ line ∈ (splitLines markup).tail, isHeading line.trim = false
  no_blank_pair : Started markup →
    (splitLines markup).IsChain fun a b => ¬ (a.isAllBlank = true ∧ b.isAllBlank = true)

/-- Markup in which no diagram starts is tidy if no white space stands around it or at the end of a line. -/
theorem tidy_of_prose {markup : Text} (hbefore : markup.head?.any isBlank = false)
    (hbehind : markup.getLast?.any isBlank = false)
    (htrailing : ∀ line ∈ splitLines markup, line.getLast?.any isBlank = false)
    (hprose : ∀ line ∈ splitLines markup, isStart line.trim = false) : Tidy markup := by
  have hnot : ¬ Started markup := by
    rintro ⟨first, rest, hsplit, hstart⟩
    rw [hprose first (by simp [hsplit])] at hstart
    cases hstart
  refine ⟨hbefore, hbehind, htrailing, ⟨?_, fun h => absurd h hnot⟩, fun h => absurd h hnot, fun h => absurd h hnot⟩
  rintro ⟨line, hline, hstart⟩
  rw [hprose line hline] at hstart
  cases hstart

/-! ## The lines behind the start of a diagram -/

/-- **No line of a diagram lies past its end.** -/
theorem isChain_continuation : ∀ (first : Text) (rest : List Text),
    (first :: continuation first rest).IsChain fun a b => isPast a b = false
  | first, [] => List.isChain_singleton first
  | first, next :: rest => by
    rw [continuation_cons]
    cases hpast : isPast first next with
    | true => exact List.isChain_singleton first
    | false => exact List.isChain_cons_cons.2 ⟨hpast, isChain_continuation next rest⟩

theorem not_isHeading_of_isChain {first : Text} {rest : List Text}
    (h : (first :: rest).IsChain fun a b => isPast a b = false) : ∀ line ∈ rest, isHeading line.trim = false := by
  have hlater : (first :: rest).IsChain fun _ b => isHeading b.trim = false :=
    h.imp fun _ _ hpast => (isPast_eq_false_iff.1 hpast).1
  have : Trans (fun _ b : Text => isHeading b.trim = false) (fun _ b : Text => isHeading b.trim = false)
      (fun _ b : Text => isHeading b.trim = false) := ⟨fun _ hb => hb⟩
  exact (List.pairwise_cons.1 (List.isChain_iff_pairwise.1 hlater)).1

/-! ## The two ways to cut a diagram out of its lines -/

variable {lines : List Text}

/-- Without a start all lines are kept, and none of them starts a diagram. -/
theorem extract_prose (hone : ∀ line ∈ lines, '\n' ∉ line) (htrim : ∀ line ∈ lines, trimEnd line = line)
    (hne : extract lines ≠ []) (hprose : ∀ line ∈ lines, isStart line.trim = false) :
    ∀ line ∈ splitLines (extract lines), isStart line.trim = false := by
  obtain ⟨a, first, rest, b, hlines, hcode⟩ := splitLines_extract hone htrim hne
  intro line hline
  rw [hcode] at hline
  rcases List.mem_cons.1 hline with rfl | hline
  · rw [Text.trim_of_trimStart]
    exact hprose first (by simp [hlines])
  · exact hprose line (by simp [hlines, hline])

/-- With a start the code begins there, and none of its lines lies past the end of the diagram. -/
theorem extract_started {before : List Text} (hbefore : ∀ line ∈ before, isStart line.trim = false) {first : Text}
    (hfirst : isStart first.trim = true) {rest : List Text} (hone : ∀ line ∈ before ++ first :: rest, '\n' ∉ line)
    (htrim : ∀ line ∈ before ++ first :: rest, trimEnd line = line) :
    ∃ kept, splitLines (extract (before ++ first :: rest)) = trimStart first :: kept ∧
      (first :: kept).IsChain fun a b => isPast a b = false := by
  have hwindow : ∀ line ∈ first :: continuation first rest, line ∈ before ++ first :: rest := fun line hline =>
    List.mem_append_right _ ((List.cons_prefix_cons.2 ⟨rfl, continuation_prefix first rest⟩).subset hline)
  have hextract : extract (before ++ first :: rest) = trimEnd (joinLines (trimStart first :: continuation first rest)) := by
    rw [extract_of_start hbefore hfirst, trim, Text.trimStart_joinLines_cons (not_all_blank_of_isStart hfirst)]
  -- trimming the end takes whole lines, and not the first one
  have hkept : ∀ line ∈ trimStart first :: continuation first rest, trimEnd line = line := by
    intro line hline
    rcases List.mem_cons.1 hline with rfl | hline
    · exact Text.trimEnd_eq_self_of_suffix (htrim first (hwindow first List.mem_cons_self)) (List.dropWhile_suffix _)
    · exact htrim line (hwindow line (List.mem_cons_of_mem _ hline))
  have hne : trimEnd (joinLines (trimStart first :: continuation first rest)) ≠ [] := by
    refine Text.trimEnd_joinLines_ne_nil List.mem_cons_self ?_
    rw [Text.isAllBlank_trimStart]
    exact Bool.eq_false_iff.2 fun hblank => not_all_blank_of_isStart hfirst (List.all_eq_true.1 hblank)
  obtain ⟨init, b, hinit, hinit', hend⟩ := Text.trimEnd_joinLines hkept hne
  cases init with
  | nil => exact absurd rfl hinit'
  | cons x kept =>
    rw [List.cons_append] at hinit
    obtain ⟨rfl, hcontinuation⟩ := List.cons.inj hinit
    refine ⟨kept, ?_, ?_⟩
    · rw [hextract, hend]
      refine Text.splitLines_joinLines (List.cons_ne_nil _ _) fun line hline hmem => ?_
      rcases List.mem_cons.1 hline with rfl | hline
      · exact Text.not_mem_trimStart (hone first (hwindow first List.mem_cons_self)) hmem
      · refine hone line (hwindow line (List.mem_cons_of_mem _ ?_)) hmem
        rw [hcontinuation]
        exact List.mem_append_left b hline
    · have hchain := isChain_continuation first rest
      rw [hcontinuation, ← List.cons_append] at hchain
      exact (List.isChain_append.1 hchain).1

/-- **What is extracted from trimmed lines is tidy.** -/
theorem tidy_extract (hone : ∀ line ∈ lines, '\n' ∉ line) (htrim : ∀ line ∈ lines, trimEnd line = line)
    (hne : extract lines ≠ []) : Tidy (extract lines) := by
  obtain ⟨window, -, hwindow⟩ := extract_window lines
  have hlines : ∀ line ∈ splitLines (extract lines), line.getLast?.any isBlank = false := by
    obtain ⟨a, first, rest, b, hlines, hcode⟩ := splitLines_extract hone htrim hne
    intro line hline
    rw [hcode] at hline
    apply Text.trimEnd_eq_self_iff.1
    rcases List.mem_cons.1 hline with rfl | hline
    · exact Text.trimEnd_eq_self_of_suffix (htrim first (by simp [hlines])) (List.dropWhile_suffix _)
    · exact htrim line (by simp [hlines, hline])
  have hbefore : (extract lines).head?.any isBlank = false := by
    rw [hwindow, ← Text.trimStart_trim]
    exact Text.head?_trimStart _
  have hbehind : (extract lines).getLast?.any isBlank = false := by
    rw [hwindow]
    exact Text.trimEnd_eq_self_iff.1 (Text.trimEnd_trimEnd _)
  rcases prose_or_started lines with hprose | ⟨before, first, rest, rfl, habove, hstart⟩
  · exact tidy_of_prose hbefore hbehind hlines (extract_prose hone htrim hne hprose)
  · obtain ⟨kept, hcode, hchain⟩ := extract_started habove hstart hone htrim
    have hstarted : Started (extract (before ++ first :: rest)) :=
      ⟨_, kept, hcode, by rwa [Text.trim_of_trimStart]⟩
    refine ⟨hbefore, hbehind, hlines, ⟨fun _ => hstarted, fun _ => ?_⟩, fun _ => ?_, fun _ => ?_⟩
    · refine ⟨trimStart first, by simp [hcode], ?_⟩
      rwa [Text.trim_of_trimStart]
    · rw [hcode]
      exact not_isHeading_of_isChain hchain
    · rw [hcode]
      cases kept with
      | nil => exact List.isChain_singleton _
      | cons next kept =>
        obtain ⟨hpast, htail⟩ := List.isChain_cons_cons.1 hchain
        refine List.isChain_cons_cons.2 ⟨?_, htail.imp fun a b hab => (isPast_eq_false_iff.1 hab).2⟩
        rw [Text.isAllBlank_trimStart]
        exact (isPast_eq_false_iff.1 hpast).2

/-- **A cleaned body is tidy**, whatever decorates its lines. -/
theorem tidy_clean {style : CommentStyle} {raw : Text} (hne : clean style.strip raw ≠ []) :
    Tidy (clean style.strip raw) := by
  have hlines := dedented_line (stripped_line style raw)
  exact tidy_extract (fun line hline => (hlines line hline).2) (fun line hline => (hlines line hline).1) hne

theorem isRejected_eq_false_iff {markup : Text} : isRejected markup = false ↔
    3 ≤ markup.length ∧ ∀ fragment ∈ settingsFragments, ¬ fragment <:+: markup := by
  unfold isRejected minimumLength
  rw [Bool.or_eq_false_iff, decide_eq_false_iff_not, Nat.not_lt, List.any_eq_false]
  simp only [Text.contains_iff]

end Diagram

/-! ## Blocks -/

namespace Document

theorem accepted_of_code? {style : CommentStyle} {raw : Text} {code : DiagramCode} (h : code? style raw = some code) :
    Diagram.isRejected code.markup = false := by
  have hmarkup := code?_markup h
  unfold code? at h
  split at h
  · cases h
  · rename_i hcond
    rw [hmarkup]
    exact Bool.eq_false_iff.2 fun hrejected => hcond (Or.inr hrejected)

theorem language_of_mem_blocks {styles : List CommentStyle} {language : Language} {t : Text} {block : Block}
    (h : block ∈ blocks styles language t) : block.language = language := by
  obtain ⟨style, -, hblock⟩ := List.mem_flatMap.1 h
  obtain ⟨c, -, hc⟩ := List.mem_filterMap.1 hblock
  rw [block?_eq] at hc
  obtain ⟨code, -, hcode⟩ := Option.bind_eq_some_iff.1 hc
  obtain ⟨range, -, rfl⟩ := Option.map_eq_some_iff.1 hcode
  rfl

end Document

/-- **What every block of a document looks like.**  It is tagged with the language that was asked for, and its code is
tidy, long enough and no piece of an editor's settings. -/
theorem parse_tidy (language : Language) {t : Text} (hlen : t.length ≤ maximumLength) :
    ∃ found, Document.parse language (String.ofList t) = .ok found ∧ ∀ block ∈ found,
      block.language = language ∧ 3 ≤ block.code.markup.length ∧
      (∀ fragment ∈ Diagram.settingsFragments, ¬ fragment <:+: block.code.markup) ∧
      Diagram.Tidy block.code.markup := by
  refine ⟨_, Document.parse_of_length_le language hlen, fun block hblock => ?_⟩
  obtain ⟨style, -, -, -, -, -, -, raw, -, -, -, hcode, -, -⟩ := Document.exists_comment hlen hblock
  obtain ⟨hlong, hsettings⟩ := Diagram.isRejected_eq_false_iff.1 (Document.accepted_of_code? hcode)
  refine ⟨Document.language_of_mem_blocks hblock, hlong, hsettings, ?_⟩
  have hmarkup := Document.code?_markup hcode
  rw [hmarkup]
  exact Diagram.tidy_clean (hmarkup ▸ block.code.nonempty)

/-- A docstring with a diagram between prose and a heading, and one in which no diagram starts. -/
def prosaic : Text :=
  "\"\"\"Flow.\n  Mermaid:\n  as drawn:\n\n    graph TD  \n\n      A --> B\n    Note: old\n\"\"\"\n".toList ++
    "'''mermaid\n\n  A --> B\n\n\n  B --> C'''\n".toList

theorem parse_tidy_prosaic : ∃ found, Document.parse .python (String.ofList prosaic) = .ok found ∧
    found.map (·.code.markup) = ["graph TD\n\n    A --> B".toList, "A --> B\n\n\nB --> C".toList] ∧ ∀ block ∈ found,
      block.language = .python ∧ 3 ≤ block.code.markup.length ∧
      (∀ fragment ∈ Diagram.settingsFragments, ¬ fragment <:+: block.code.markup) ∧
      Diagram.Tidy block.code.markup := by
  obtain ⟨found, hparse, htidy⟩ := @parse_tidy .python prosaic (by decide +kernel)
  refine ⟨found, hparse, ?_, htidy⟩
  rw [Document.parse_of_length_le .python (by decide +kernel)] at hparse
  obtain rfl := Except.ok.inj hparse
  decide +kernel

end Marginalia
