import Marginalia.Proofs.Comment.Append
import Marginalia.Proofs.Findings
/-!
# The blocks of a text with more text behind it

One law holds wherever the text is cut, also inside a comment or a delimiter: what was found in the first part stays,
and all that is new comes from comments that end in the second part (`parse_append_grows`).  Where the first part consists of whole
lines and closes its comments, the second one is read as if it stood alone (`parse_append_closed`).
-/
namespace Marginalia

open Document (Finding finding blocks block? maximumLength)

namespace Language

theorem styles_eq_block {language : Language} (hpython : language ≠ .python) (hrust : language ≠ .rust) :
    language.grammar.styles = [.block] := by
  cases language <;> first | rfl | contradiction

end Language

namespace Document

theorem findings_style {t : Text} (hlen : t.length ≤ maximumLength) (style : CommentStyle) (language : Language) :
    (blocks [style] language t).map finding = style.findings language t := by
  rw [findings_eq hlen, List.flatMap_singleton]

end Document

/-! ## The second part by itself -/

namespace CommentStyle

/-- **Where no comment of the first part is decided by the second, the findings of the second part follow.** -/
theorem findings_append {style : CommentStyle} {a b : Text}
    (h : ∀ s, s <:+ a → s ≠ [] → style.notice? (s ++ b) = (style.notice? s).map (Notice.append b))
    (language : Language) :
    style.findings language (a ++ b) =
      style.findings language a ++ (style.findings language b).map (Finding.below (a.count '\n')) := by
  have hbehind := @sightings_behind style a [] b
  rw [List.append_nil] at hbehind
  rw [findings, sightings_append_of_local h, List.nil_append, hbehind, List.filterMap_append, List.filterMap_map,
    findings, findings, List.map_filterMap]
  refine congrArg _ (List.filterMap_congr fun s _ => ?_)
  exact Sighting.finding?_behind language style a s

theorem notice?_block_append {s b : Text} (hs : s.EndsLine) (hne : s ≠ [])
    (hclosed : ∀ p inside, s = p ++ ("/*".toList ++ inside) → "*/".toList <:+: inside) :
    block.notice? (s ++ b) = (block.notice? s).map (Notice.append b) :=
  Delimiters.notice?_append_of_closed (d := blockDelimiters) (by decide) hs hne hclosed b

end CommentStyle

section Closed

variable {a b : Text} (hend : a = [] ∨ a.getLast? = some '\n')
include hend

theorem endsLine_of_getLast? : a.EndsLine := by
  intro c hc
  rcases hend with rfl | hlast
  · cases hc
  · exact Option.some.inj (hc.symm.trans hlast)

theorem findings_block_append (hclosed : ∀ p inside, a = p ++ ("/*".toList ++ inside) → "*/".toList <:+: inside)
    (language : Language) :
    CommentStyle.block.findings language (a ++ b) = CommentStyle.block.findings language a ++
      (CommentStyle.block.findings language b).map (Finding.below (a.count '\n')) := by
  refine CommentStyle.findings_append (fun s hs hne => ?_) language
  refine CommentStyle.notice?_block_append ((endsLine_of_getLast? hend).suffix hs) hne fun p inside hp => ?_
  obtain ⟨q, rfl⟩ := hs
  exact hclosed (q ++ p) inside (by rw [hp, List.append_assoc])

theorem findings_docRun_append
    (hb : ∀ gap rest, (∀ c ∈ gap, c = ' ' ∨ c = '\t') → b ≠ gap ++ ("//!".toList ++ rest)) (language : Language) :
    CommentStyle.docRun.findings language (a ++ b) = CommentStyle.docRun.findings language a ++
      (CommentStyle.docRun.findings language b).map (Finding.below (a.count '\n')) := by
  have hbegins : DocRun.beginsLine b = false := by
    refine Bool.eq_false_iff.2 fun h => ?_
    obtain ⟨gap, rest, hgap, hrest⟩ := DocRun.beginsLine_iff.1 h
    exact hb gap rest hgap hrest
  refine CommentStyle.findings_append (fun s hs hne => ?_) language
  exact DocRun.notice?_append ((endsLine_of_getLast? hend).suffix hs) hne hbegins

end Closed

/-- **A text of whole lines with closed comments and any text behind it parse as each of them by itself.** -/
theorem parse_append_closed {a b : Text} (hend : a = [] ∨ a.getLast? = some '\n')
    (hclosed : ∀ p inside, a = p ++ ("/*".toList ++ inside) → "*/".toList <:+: inside)
    (hlen : (a ++ b).length ≤ maximumLength) :
    (∀ language, language ≠ .python → language ≠ .rust → ∃ above below both,
      Document.parse language (String.ofList a) = .ok above ∧ Document.parse language (String.ofList b) = .ok below ∧
      Document.parse language (String.ofList (a ++ b)) = .ok both ∧
      both.map finding = above.map finding ++ below.map fun block => (finding block).below (a.count '\n')) ∧
    ((∀ gap rest, (∀ c ∈ gap, c = ' ' ∨ c = '\t') → b ≠ gap ++ ("//!".toList ++ rest)) →
      ∃ above aboveRuns below belowRuns both,
        Document.parse .rust (String.ofList a) = .ok (above ++ aboveRuns) ∧
        Document.parse .rust (String.ofList b) = .ok (below ++ belowRuns) ∧
        Document.parse .rust (String.ofList (a ++ b)) = .ok both ∧
        (above = blocks [.block] .rust a ∧ aboveRuns = blocks [.docRun] .rust a ∧
          below = blocks [.block] .rust b ∧ belowRuns = blocks [.docRun] .rust b) ∧
        both.map finding =
          above.map finding ++ (below.map fun block => (finding block).below (a.count '\n')) ++
            (aboveRuns.map finding ++ belowRuns.map fun block => (finding block).below (a.count '\n'))) := by
  have hlen' := hlen
  rw [List.length_append] at hlen'
  have ha : a.length ≤ maximumLength := by omega
  have hb : b.length ≤ maximumLength := by omega
  have hblock := findings_block_append (b := b) hend hclosed
  refine ⟨fun language hpython hrust => ?_, fun hrun => ?_⟩
  · have hstyles := Language.styles_eq_block hpython hrust
    refine ⟨_, _, _, Document.parse_of_length_le language ha, Document.parse_of_length_le language hb,
      Document.parse_of_length_le language hlen, ?_⟩
    rw [hstyles, Document.findings_style hlen, hblock, ← Document.findings_style ha, ← Document.findings_style hb,
      List.map_map]
    rfl
  · have hdoc := findings_docRun_append (b := b) hend hrun
    refine ⟨_, _, _, _, _, ?_, ?_, Document.parse_of_length_le .rust hlen, ⟨rfl, rfl, rfl, rfl⟩, ?_⟩
    · rw [Document.parse_of_length_le .rust ha, ← Document.blocks_pair]
      rfl
    · rw [Document.parse_of_length_le .rust hb, ← Document.blocks_pair]
      rfl
    · have hstyles : Language.rust.grammar.styles = [.block, .docRun] := rfl
      rw [hstyles, Document.blocks_pair, List.map_append, Document.findings_style hlen, Document.findings_style hlen,
        hblock, hdoc, ← Document.findings_style ha, ← Document.findings_style ha, ← Document.findings_style hb,
        ← Document.findings_style hb, List.map_map, List.map_map]
      rfl

/-- Whole lines with a closed comment and a run of documentation lines. -/
def upper : Text := "/* mermaid\ngraph TD\n*/\n//! mermaid\n//! pie\n".toList

/-- A comment, a run, and an opener that nothing closes. -/
def lower : Text := "/* @Mermaid:\n * mindmap */\n //! mermaid\n //! gantt\n/*".toList

/-- Openers are told by their places. -/
theorem closed_of_forall {t : Text} (h : ∀ k < t.length, "/*".toList.isPrefixOf (t.drop k) →
    Text.contains "*/".toList (t.drop (k + 2))) :
    ∀ p inside, t = p ++ ("/*".toList ++ inside) → "*/".toList <:+: inside := by
  rintro p inside rfl
  have hopen : (p ++ ("/*".toList ++ inside)).drop p.length = "/*".toList ++ inside := List.drop_left
  have hinside : (p ++ ("/*".toList ++ inside)).drop (p.length + 2) = inside := by
    rw [← List.drop_drop, hopen]
    rfl
  have hlt : p.length < (p ++ ("/*".toList ++ inside)).length := by
    simp only [List.length_append]
    exact Nat.lt_add_of_pos_right (Nat.lt_of_lt_of_le (by decide) (Nat.le_add_right _ _))
  have := h p.length hlt (by rw [hopen]; exact List.isPrefixOf_iff_prefix.2 (List.prefix_append _ _))
  rwa [hinside, Text.contains_iff] at this

theorem parse_append_closed_upper_lower :
    (∃ above below both,
      Document.parse .go (String.ofList upper) = .ok above ∧ Document.parse .go (String.ofList lower) = .ok below ∧
      Document.parse .go (String.ofList (upper ++ lower)) = .ok both ∧
      both.map finding = above.map finding ++ below.map fun block => (finding block).below 5) ∧
    ∃ above aboveRuns below belowRuns both,
      Document.parse .rust (String.ofList upper) = .ok (above ++ aboveRuns) ∧
      Document.parse .rust (String.ofList lower) = .ok (below ++ belowRuns) ∧
      Document.parse .rust (String.ofList (upper ++ lower)) = .ok both ∧
      (above = blocks [.block] .rust upper ∧ aboveRuns = blocks [.docRun] .rust upper ∧
        below = blocks [.block] .rust lower ∧ belowRuns = blocks [.docRun] .rust lower) ∧
      both.map finding =
        above.map finding ++ (below.map fun block => (finding block).below 5) ++
          (aboveRuns.map finding ++ belowRuns.map fun block => (finding block).below 5) := by
  obtain ⟨hone, hrust⟩ := parse_append_closed (b := lower) (Or.inr (show upper.getLast? = some '\n' by decide))
    (closed_of_forall (by decide)) (by decide)
  refine ⟨hone .go (by decide) (by decide), hrust fun gap rest hgap hlower => ?_⟩
  have hbegins : DocRun.beginsLine lower = false := by decide
  rw [DocRun.beginsLine_iff.2 ⟨gap, rest, hgap, hlower⟩] at hbegins
  cases hbegins

example : (blocks [.block, .docRun] .rust (upper ++ lower)).map (fun b => (b.code.markup, b.range.first.value)) =
    [("graph TD".toList, 0), ("mindmap".toList, 5), ("pie".toList, 3), ("gantt".toList, 7)] := by decide +kernel

/-! ## What stays -/

/-- Of the blocks of one style in `a ++ b`, `older` are those of `a` and `newer` those of comments that end behind `a`. -/
structure Grows (language : Language) (style : CommentStyle) (a b : Text) (older newer : List Block) : Prop where
  older_eq : older = blocks [style] language a
  newer_eq : ∃ later, style.candidates (a ++ b) = style.candidates a ++ later ∧ (∀ c ∈ later, a.byteLength < c.stop) ∧
    newer = later.filterMap (block? language style (LineIndex.ofText (a ++ b)))

theorem LineIndex.range?_congr {index other : LineIndex} {start stop : Nat}
    (hstart : index.lineOf start = other.lineOf start) (hstop : index.lineOf stop = other.lineOf stop) :
    index.range? start stop = other.range? start stop := by
  rw [range?, range?, hstart, hstop]

namespace CommentStyle

variable {style : CommentStyle} {d : Delimiters} {head : Head}

/-- **The candidates of a text stay the first ones**, and all others end in the text behind it. -/
theorem candidates_append (henc : style.enclosure? = some (d, head)) (a b : Text) :
    ∃ later, style.candidates (a ++ b) = style.candidates a ++ later ∧ ∀ c ∈ later, a.byteLength < c.stop := by
  obtain ⟨later, hlater, hpast⟩ := sightings_append henc [] a b
  refine ⟨later.map Sighting.candidate, ?_, fun c hc => ?_⟩
  · rw [candidates_eq_map_sightings, candidates_eq_map_sightings, hlater, List.map_append]
  · obtain ⟨s, hs, rfl⟩ := List.mem_map.1 hc
    have hmem : s ∈ style.sightings [] (a ++ b) := hlater ▸ List.mem_append_right _ hs
    obtain ⟨passed, after, hab, hbefore, -⟩ := sightings_sound hmem
    have hends : s.before ++ s.whole <+: a ++ b := ⟨after, by rw [hbefore, hab, List.nil_append, List.append_assoc]⟩
    have hlong := hpast s hs
    rw [List.nil_append] at hlong
    obtain ⟨k, hk⟩ := List.prefix_of_prefix_length_le (List.prefix_append a b) hends (Nat.le_of_lt hlong)
    rw [Sighting.candidate, ← hk, Text.byteLength_append]
    have := Text.length_le_byteLength k
    have := congrArg List.length hk
    rw [List.length_append] at this
    dsimp only
    omega

theorem block?_append (language : Language) {a : Text} {c : Candidate} (hc : c ∈ style.candidates a) (b : Text) :
    block? language style (LineIndex.ofText (a ++ b)) c = block? language style (LineIndex.ofText a) c := by
  rw [candidates_eq_map_sightings] at hc
  obtain ⟨s, hs, rfl⟩ := List.mem_map.1 hc
  obtain ⟨hstart, hstop⟩ := lineOf_candidate hs b
  obtain ⟨hstart', hstop'⟩ := lineOf_candidate hs []
  rw [List.append_nil] at hstart' hstop'
  have hrange : (LineIndex.ofText (a ++ b)).range? s.candidate.start s.candidate.stop =
      (LineIndex.ofText a).range? s.candidate.start s.candidate.stop := by
    refine LineIndex.range?_congr ?_ ?_
    · rw [LineIndex.lineOf_ofText, LineIndex.lineOf_ofText, hstart, hstart']
    · rw [LineIndex.lineOf_ofText, LineIndex.lineOf_ofText, hstop, hstop']
  rw [Document.block?_eq, Document.block?_eq, hrange]

theorem grows (henc : style.enclosure? = some (d, head)) (language : Language) (a b : Text) :
    ∃ newer, blocks [style] language (a ++ b) = blocks [style] language a ++ newer ∧
      Grows language style a b (blocks [style] language a) newer := by
  obtain ⟨later, hlater, hpast⟩ := candidates_append henc a b
  refine ⟨_, ?_, ⟨rfl, later, hlater, hpast, rfl⟩⟩
  rw [blocks, blocks, List.flatMap_singleton, List.flatMap_singleton, hlater, List.filterMap_append]
  exact congrArg (· ++ _) (List.filterMap_congr fun c hc => block?_append language hc b)

end CommentStyle

/-- **Appending text never disturbs what was found.**  Wherever `a` stops, its blocks are the first ones of `a ++ b`; in
Python this holds of the blocks of either kind of docstrings.  All further blocks come from comments that end behind
`a`. -/
theorem parse_append_grows {a b : Text} (hlen : (a ++ b).length ≤ maximumLength) :
    (∀ language, language ≠ .python → language ≠ .rust → ∃ older newer,
      Document.parse language (String.ofList a) = .ok older ∧
      Document.parse language (String.ofList (a ++ b)) = .ok (older ++ newer) ∧
      Grows language .block a b older newer) ∧
    ∃ double newDouble single newSingle,
      Document.parse .python (String.ofList a) = .ok (double ++ single) ∧
      Document.parse .python (String.ofList (a ++ b)) = .ok ((double ++ newDouble) ++ (single ++ newSingle)) ∧
      Grows .python .doubleQuoted a b double newDouble ∧ Grows .python .singleQuoted a b single newSingle := by
  have ha : a.length ≤ maximumLength := Nat.le_trans (List.prefix_append a b).length_le hlen
  constructor
  · intro language hpython hrust
    obtain ⟨newer, hblocks, hgrows⟩ := @CommentStyle.grows .block _ _ rfl language a b
    refine ⟨_, newer, ?_, ?_, hgrows⟩
    · rw [Document.parse_of_length_le language ha, Language.styles_eq_block hpython hrust]
    · rw [Document.parse_of_length_le language hlen, Language.styles_eq_block hpython hrust, hblocks]
  · obtain ⟨newDouble, hdouble, hgrowsDouble⟩ := @CommentStyle.grows .doubleQuoted _ _ rfl .python a b
    obtain ⟨newSingle, hsingle, hgrowsSingle⟩ := @CommentStyle.grows .singleQuoted _ _ rfl .python a b
    have hstyles : Language.python.grammar.styles = [.doubleQuoted, .singleQuoted] := rfl
    refine ⟨_, newDouble, _, newSingle, ?_, ?_, hgrowsDouble, hgrowsSingle⟩
    · rw [Document.parse_of_length_le .python ha, hstyles, Document.blocks_pair]
    · rw [Document.parse_of_length_le .python hlen, hstyles, Document.blocks_pair, hdouble, hsingle]

/-- The text stops within the closer of its second comment. -/
def cutOff : Text := "/* mermaid\ngraph TD\n*/\n/* mermaid\nflowchart LR\n*".toList

theorem parse_append_grows_cutOff : ∃ older newer,
    Document.parse .typescriptReact (String.ofList cutOff) = .ok older ∧
    Document.parse .typescriptReact (String.ofList (cutOff ++ ['/'])) = .ok (older ++ newer) ∧
    Grows .typescriptReact .block cutOff ['/'] older newer :=
  (parse_append_grows (by decide)).1 .typescriptReact (by decide) (by decide)

example : (blocks [.block] .go cutOff).map (·.code.markup) = ["graph TD".toList] ∧
    (blocks [.block] .go (cutOff ++ ['/'])).map (·.code.markup) = ["graph TD".toList, "flowchart LR".toList] := by
  decide +kernel

end Marginalia
