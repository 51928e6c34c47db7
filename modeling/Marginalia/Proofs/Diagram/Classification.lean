import Marginalia.Diagram.Heading
import Marginalia.Diagram.Keyword
import Marginalia.Proofs.Text.Blank
import Marginalia.Proofs.Text.Regex
/-!
# What a line is classified by

A line starts a diagram if it begins with a keyword (`IsKeyword`), and it heads a section if it begins with a title and a
colon, with signs or with a capitalized word and a colon (`IsOpening`).  Nothing else about the line matters, so whatever
is written behind, it stays what it is (`Begins.append`).  Each of the two grammars is the language of a regular expression
at the start of the line, and the tests of `Marginalia.Diagram.Keyword` and `Marginalia.Diagram.Heading`, which try one
keyword and one title after the other, accept the same lines (`classified_by_beginning`).
-/
namespace Marginalia

open Text (trimStart Spells)

namespace Diagram

/-! ## The grammars -/

/-- The line begins with a text of the grammar. -/
def Begins (grammar : Text → Prop) (line : Text) : Prop := ∃ s rest : Text, line = s ++ rest ∧ grammar s

def IsKeyword (s : Text) : Prop := ∃ word ∈ keywords, Spells s word

/-- The words of a title in any case, with white space between them. -/
inductive IsTitle : List Text → Text → Prop
  | last {word written : Text} : Spells written word → IsTitle [word] written
  | more {word next written gap s : Text} {title : List Text} : Spells written word → gap ≠ [] → (∀ c ∈ gap, isBlank c) →
      IsTitle (next :: title) s → IsTitle (word :: next :: title) (written ++ (gap ++ s))

def IsTitled (s : Text) : Prop := ∃ title ∈ headingTitles, ∃ written : Text, s = written ++ [':'] ∧ IsTitle title written

def IsNumbered (s : Text) : Prop :=
  ∃ (signs : Text) (c : Char), s = signs ++ [c] ∧ (signs = ['#'] ∨ signs = ['#', '#']) ∧ isBlank c = true

def IsCapitalized (s : Text) : Prop :=
  ∃ (c : Char) (small : Text), s = c :: small ++ [':'] ∧ ('A' ≤ c ∧ c ≤ 'Z') ∧ small ≠ [] ∧ ∀ x ∈ small, 'a' ≤ x ∧ x ≤ 'z'

/-- What the heading of a section begins with. -/
def IsOpening (s : Text) : Prop := IsTitled s ∨ IsNumbered s ∨ IsCapitalized s

variable {grammar other : Text → Prop} {line : Text}

theorem Begins.append (h : Begins grammar line) (t : Text) : Begins grammar (line ++ t) := by
  obtain ⟨s, rest, rfl, hs⟩ := h
  exact ⟨s, rest ++ t, List.append_assoc _ _ _, hs⟩

theorem begins_or : Begins (fun s => grammar s ∨ other s) line ↔ Begins grammar line ∨ Begins other line := by
  simp only [Begins, and_or_left, exists_or]

/-! ## Keywords -/

theorem isPlain_of_mem_keywords {word : Text} (hword : word ∈ keywords) : ∀ x ∈ word, IsPlain x := by
  have hall : keywords.all (fun word => word.all fun x => decide (IsPlain x)) = true := by decide +kernel
  simp only [List.all_eq_true, decide_eq_true_eq] at hall
  exact hall word hword

theorem isStart_iff : isStart line = true ↔ Begins IsKeyword line := by
  have hword : ∀ word ∈ keywords, (Text.beginsWithWord word line = true ↔ Begins (Spells · word) line) :=
    fun word hmem => by
      rw [Text.beginsWithWord, Option.isSome_iff_exists, Begins, exists_comm]
      exact exists_congr fun rest => Text.afterWord?_eq_some_iff_spells (isPlain_of_mem_keywords hmem)
  rw [isStart, List.any_eq_true]
  constructor
  · rintro ⟨word, hmem, h⟩
    obtain ⟨s, rest, hline, hs⟩ := (hword word hmem).1 h
    exact ⟨s, rest, hline, word, hmem, hs⟩
  · rintro ⟨s, rest, hline, word, hmem, hs⟩
    exact ⟨word, hmem, (hword word hmem).2 ⟨s, rest, hline, hs⟩⟩

/-! ## Titles -/

/-- What `afterTitle?` relies on: a word of a title does not begin with white space. -/
def IsTitleWord (word : Text) : Prop := word ≠ [] ∧ ∀ x ∈ word, IsPlain x ∧ isBlank x = false

theorem isTitleWord_of_mem {title : List Text} (htitle : title ∈ headingTitles) :
    title ≠ [] ∧ ∀ word ∈ title, IsTitleWord word := by
  have hall : headingTitles.all (fun title => !title.isEmpty && title.all fun word =>
      !word.isEmpty && word.all fun x => decide (IsPlain x) && !isBlank x) = true := by decide +kernel
  simp only [List.all_eq_true, Bool.and_eq_true, Bool.not_eq_true', List.isEmpty_eq_false_iff, decide_eq_true_eq] at hall
  exact hall title htitle

theorem IsTitleWord.afterWord?_eq_some_iff {word t rest : Text} (h : IsTitleWord word) :
    Text.afterWord? word t = some rest ↔ ∃ s : Text, t = s ++ rest ∧ Spells s word :=
  Text.afterWord?_eq_some_iff_spells fun x hx => (h.2 x hx).1

theorem IsTitleWord.trimStart_append {word s : Text} (h : IsTitleWord word) (hs : Spells s word) (rest : Text) :
    trimStart (s ++ rest) = s ++ rest := by
  cases hs with
  | nil => exact absurd rfl h.1
  | @cons c x s word hc _ =>
    obtain ⟨hplain, hblank⟩ := h.2 x List.mem_cons_self
    exact Text.trimStart_cons ((hc.isBlank_eq hplain).trans hblank)

theorem IsTitle.trimStart_append {title : List Text} {s : Text} (hs : IsTitle title s)
    (h : ∀ word ∈ title, IsTitleWord word) (rest : Text) : trimStart (s ++ rest) = s ++ rest := by
  cases hs with
  | last hwritten => exact (h _ List.mem_cons_self).trimStart_append hwritten rest
  | more hwritten _ _ _ =>
    rw [List.append_assoc]
    exact (h _ List.mem_cons_self).trimStart_append hwritten _

theorem afterTitle?_cons_cons (word next : Text) (title : List Text) (t : Text) : afterTitle? (word :: next :: title) t =
    match Text.afterWord? word t with
    | some (c :: rest) => if isBlank c then afterTitle? (next :: title) (trimStart rest) else none
    | _ => none := rfl

/-- **What follows a title**: the reader takes all white space behind a word, and no word begins with any. -/
theorem afterTitle?_eq_some_iff : ∀ {title : List Text} {t rest : Text}, title ≠ [] → (∀ word ∈ title, IsTitleWord word) →
    (afterTitle? title t = some rest ↔ ∃ s : Text, t = s ++ rest ∧ IsTitle title s)
  | [word], t, rest, _, h => by
    rw [afterTitle?, (h word List.mem_cons_self).afterWord?_eq_some_iff]
    refine exists_congr fun s => and_congr_right' ⟨.last, ?_⟩
    rintro ⟨hs⟩
    assumption
  | word :: next :: title, t, rest, _, h => by
    have hword := h word List.mem_cons_self
    have htitle : ∀ w ∈ next :: title, IsTitleWord w := fun w hw => h w (List.mem_cons_of_mem word hw)
    have ih : ∀ {u}, afterTitle? (next :: title) u = some rest ↔ ∃ s : Text, u = s ++ rest ∧ IsTitle (next :: title) s :=
      afterTitle?_eq_some_iff (List.cons_ne_nil next title) htitle
    rw [afterTitle?_cons_cons]
    constructor
    · intro hafter
      split at hafter
      · rename_i c u hu
        split at hafter
        · rename_i hc
          obtain ⟨written, rfl, hwritten⟩ := hword.afterWord?_eq_some_iff.1 hu
          obtain ⟨s, hs, hnext⟩ := ih.1 hafter
          obtain ⟨gap, hgap, hsplit⟩ := Text.exists_trimStart u
          refine ⟨written ++ (c :: gap ++ s), ?_, .more hwritten (List.cons_ne_nil c gap) ?_ hnext⟩
          · rw [hsplit, hs]
            simp only [List.append_assoc, List.cons_append]
          · exact List.forall_mem_cons.2 ⟨hc, hgap⟩
        · cases hafter
      · cases hafter
    · rintro ⟨_, rfl, hs⟩
      cases hs with
      | @more _ _ written gap s _ hwritten hne hgap hnext =>
        obtain ⟨c, gap, rfl⟩ := List.exists_cons_of_ne_nil hne
        obtain ⟨hc, hgap⟩ := List.forall_mem_cons.1 hgap
        have hafter : Text.afterWord? word (written ++ (c :: gap ++ s) ++ rest) = some (c :: (gap ++ (s ++ rest))) :=
          hword.afterWord?_eq_some_iff.2 ⟨written, by simp only [List.append_assoc, List.cons_append], hwritten⟩
        rw [hafter]
        dsimp only
        rw [if_pos hc, Text.trimStart_append hgap, hnext.trimStart_append htitle]
        exact ih.2 ⟨s, rfl, hnext⟩

theorem isTitled_iff : isTitled line = true ↔ Begins IsTitled line := by
  rw [isTitled, List.any_eq_true]
  constructor
  · rintro ⟨title, htitle, hafter⟩
    obtain ⟨after, hafter, hcolon⟩ := (Option.any_eq_true _ _).1 hafter
    obtain ⟨rest, rfl⟩ := List.head?_eq_some_iff.1 (beq_iff_eq.1 hcolon)
    obtain ⟨hne, hwords⟩ := isTitleWord_of_mem htitle
    obtain ⟨written, rfl, hwritten⟩ := (afterTitle?_eq_some_iff hne hwords).1 hafter
    exact ⟨written ++ [':'], rest, (List.append_assoc _ [':'] rest).symm, title, htitle, written, rfl, hwritten⟩
  · rintro ⟨_, rest, rfl, title, htitle, written, rfl, hwritten⟩
    obtain ⟨hne, hwords⟩ := isTitleWord_of_mem htitle
    rw [List.append_assoc]
    refine ⟨title, htitle, (Option.any_eq_true _ _).2 ⟨':' :: rest, ?_, rfl⟩⟩
    exact (afterTitle?_eq_some_iff hne hwords).2 ⟨written, rfl, hwritten⟩

/-! ## Signs and capitalized words -/

theorem isNumbered_iff : isNumbered line = true ↔ Begins IsNumbered line := by
  constructor
  · intro h
    unfold isNumbered at h
    split at h
    · rename_i c rest
      exact ⟨['#', '#', c], rest, rfl, ['#', '#'], c, rfl, Or.inr rfl, h⟩
    · rename_i c rest _
      exact ⟨['#', c], rest, rfl, ['#'], c, rfl, Or.inl rfl, h⟩
    · cases h
  · rintro ⟨_, rest, rfl, _, c, rfl, rfl | rfl, hc⟩
    · have hne : c ≠ '#' := ne_of_isBlank hc rfl
      rw [List.append_assoc, List.singleton_append, List.singleton_append]
      unfold isNumbered
      split
      · rename_i heq
        cases heq
        exact absurd rfl hne
      · rename_i heq
        cases heq
        exact hc
      · rename_i hnone
        exact absurd rfl (hnone c rest)
    · exact hc

theorem isUpper_iff {c : Char} : c.isUpper = true ↔ 'A' ≤ c ∧ c ≤ 'Z' := by
  have hupper : c.isUpper = decide (c.val ≥ 'A'.val ∧ c.val ≤ 'Z'.val) := rfl
  rw [hupper, decide_eq_true_eq]
  rfl

theorem isLower_iff {c : Char} : c.isLower = true ↔ 'a' ≤ c ∧ c ≤ 'z' := by
  have hlower : c.isLower = (decide (c.val ≥ 'a'.val) && decide (c.val ≤ 'z'.val)) := rfl
  rw [hlower, Bool.and_eq_true, decide_eq_true_eq, decide_eq_true_eq]
  rfl

theorem isCapitalized_iff : isCapitalized line = true ↔ Begins IsCapitalized line := by
  simp only [Begins, IsCapitalized, ← isUpper_iff, ← isLower_iff]
  constructor
  · intro h
    cases line with
    | nil => cases h
    | cons c t =>
      simp only [isCapitalized, Bool.and_eq_true, beq_iff_eq] at h
      obtain ⟨⟨hc, hfirst⟩, hcolon⟩ := h
      obtain ⟨rest, hrest⟩ := List.head?_eq_some_iff.1 hcolon
      refine ⟨_, rest, ?_, c, t.takeWhile Char.isLower, rfl, hc, ?_, List.all_eq_true.1 List.all_takeWhile⟩
      · rw [List.append_assoc, List.singleton_append, ← hrest, List.cons_append, List.takeWhile_append_dropWhile]
      · cases t with
        | nil => cases hfirst
        | cons x t =>
          have hx : x.isLower = true := hfirst
          rw [List.takeWhile_cons, if_pos hx]
          exact List.cons_ne_nil _ _
  · rintro ⟨_, rest, rfl, c, small, rfl, hc, hne, hsmall⟩
    have hdrop : (small ++ ':' :: rest).dropWhile Char.isLower = ':' :: rest := by
      rw [List.dropWhile_append_of_pos hsmall]
      rfl
    obtain ⟨x, small, rfl⟩ := List.exists_cons_of_ne_nil hne
    have hx : x.isLower = true := hsmall x List.mem_cons_self
    rw [List.append_assoc, List.singleton_append, List.cons_append, isCapitalized, hc, hdrop, List.cons_append,
      List.head?_cons, Option.any_some, hx]
    rfl

theorem isHeading_iff : isHeading line = true ↔ Begins IsOpening line := by
  rw [isHeading, Bool.or_eq_true, Bool.or_eq_true, isTitled_iff, isNumbered_iff, isCapitalized_iff, or_assoc]
  exact (begins_or.trans (or_congr_right begins_or)).symm

/-! ## The expressions -/

def spelled (word : String) : Regex := .spelling word.toList

/-- The pattern `\s+` -/
def blanks : Regex := .atLeastOnce (.one isBlank)

/-- The pattern `\A(?i:graph|flowchart|…|%%)`, with all keywords -/
def startExpression : Regex := .seq .start (.anyOf (keywords.map .spelling))

/-- The pattern `(?i:セキュリティ考慮事項|Security(?:\s+Considerations)?|環境変数|Environment(?:\s+Variables)?|使用方法|
Usage|CSVフォーマット|CSV\s+Format|注意事項|Notes?|参考|References?)` -/
def titleExpression : Regex :=
  .anyOf [spelled "セキュリティ考慮事項", .seq (spelled "Security") (.optional (.seq blanks (spelled "Considerations"))),
    spelled "環境変数", .seq (spelled "Environment") (.optional (.seq blanks (spelled "Variables"))), spelled "使用方法",
    spelled "Usage", spelled "CSVフォーマット", .seq (spelled "CSV") (.seq blanks (spelled "Format")), spelled "注意事項",
    .seq (spelled "Note") (.optional (spelled "s")), spelled "参考", .seq (spelled "Reference") (.optional (spelled "s"))]

/-- A title and `:`, or `##?\s`, or `[A-Z][a-z]+:` -/
def openingExpression : Regex :=
  .anyOf [.seq titleExpression (.char ':'), .seq (.char '#') (.seq (.optional (.char '#')) (.one isBlank)),
    .seq (.one fun c => decide ('A' ≤ c ∧ c ≤ 'Z'))
      (.seq (.atLeastOnce (.one fun c => decide ('a' ≤ c ∧ c ≤ 'z'))) (.char ':'))]

/-- The pattern `\A(?:…)` around it -/
def headingExpression : Regex := .seq .start openingExpression

theorem isSome_startExpression : (startExpression.search? line).isSome = true ↔ Begins IsKeyword line := by
  rw [startExpression, Regex.search?_start_isSome (by decide +kernel)]
  simp only [Regex.matches_anyOf, List.mem_map, exists_exists_and_eq_and, Regex.matches_spelling]
  rfl

theorem isTitle_singleton {word s : Text} : IsTitle [word] s ↔ Spells s word := by
  constructor
  · rintro ⟨h⟩
    assumption
  · exact .last

theorem isTitle_pair {word next s : Text} :
    IsTitle [word, next] s ↔ (Regex.seq (.spelling word) (.seq blanks (.spelling next))).Matches s := by
  simp only [Regex.matches_seq, Regex.matches_spelling, blanks, Regex.matches_atLeastOnce]
  constructor
  · intro h
    cases h with
    | more hword hne hgap hnext => exact ⟨_, _, rfl, hword, _, _, rfl, ⟨hne, hgap⟩, isTitle_singleton.1 hnext⟩
  · rintro ⟨_, _, rfl, hword, _, _, rfl, ⟨hne, hgap⟩, hnext⟩
    exact .more hword hne hgap (.last hnext)

theorem matches_titleExpression {s : Text} : titleExpression.Matches s ↔ ∃ title ∈ headingTitles, IsTitle title s := by
  have hnotes : "Note".toList ++ "s".toList = "Notes".toList := rfl
  have hreferences : "Reference".toList ++ "s".toList = "References".toList := rfl
  simp only [titleExpression, Regex.matches_anyOf, headingTitles, List.map_cons, List.map_nil, List.mem_cons, List.not_mem_nil,
    or_false, exists_eq_or_imp, exists_eq_left, Regex.matches_seq_optional, isTitle_singleton, isTitle_pair, spelled,
    Regex.matches_spelling, Regex.matches_seq_spelling, hnotes, hreferences, or_assoc]

theorem matches_openingExpression {s : Text} : openingExpression.Matches s ↔ IsOpening s := by
  simp only [openingExpression, Regex.matches_anyOf, List.mem_cons, List.not_mem_nil, or_false, exists_eq_or_imp,
    exists_eq_left, Regex.matches_seq, matches_titleExpression, Regex.matches_optional, Regex.matches_atLeastOnce,
    Regex.matches_one, Regex.matches_char, decide_eq_true_eq]
  refine or_congr ⟨?_, ?_⟩ (or_congr ⟨?_, ?_⟩ ⟨?_, ?_⟩)
  · rintro ⟨written, _, rfl, ⟨title, htitle, hwritten⟩, rfl⟩
    exact ⟨title, htitle, written, rfl, hwritten⟩
  · rintro ⟨title, htitle, written, rfl, hwritten⟩
    exact ⟨written, _, rfl, ⟨title, htitle, hwritten⟩, rfl⟩
  · rintro ⟨_, _, rfl, rfl, _, _, rfl, rfl | rfl, c, rfl, hc⟩
    · exact ⟨['#', '#'], c, rfl, Or.inr rfl, hc⟩
    · exact ⟨['#'], c, rfl, Or.inl rfl, hc⟩
  · rintro ⟨_, c, rfl, rfl | rfl, hc⟩
    · exact ⟨['#'], [c], rfl, rfl, [], [c], rfl, Or.inr rfl, c, rfl, hc⟩
    · exact ⟨['#'], ['#', c], rfl, rfl, ['#'], [c], rfl, Or.inl rfl, c, rfl, hc⟩
  · rintro ⟨_, _, rfl, ⟨c, rfl, hc⟩, small, _, rfl, ⟨hne, hsmall⟩, rfl⟩
    exact ⟨c, small, rfl, hc, hne, hsmall⟩
  · rintro ⟨c, small, rfl, hc, hne, hsmall⟩
    exact ⟨[c], _, rfl, ⟨c, rfl, hc⟩, small, _, rfl, ⟨hne, hsmall⟩, rfl⟩

theorem isSome_headingExpression : (headingExpression.search? line).isSome = true ↔ Begins IsOpening line := by
  rw [headingExpression, Regex.search?_start_isSome (by decide +kernel)]
  simp only [matches_openingExpression]
  rfl

/-- **A line is classified by what it begins with.**  It starts a diagram just if it begins with a keyword, and heads a
section just if it begins with a known title or a capitalized word and a colon, or with one or two signs and white space:
keywords and titles up to simple case folding, capitalized words as they stand.  The two regular expressions find the same.
So what is written behind a line that is accepted does not matter. -/
theorem classified_by_beginning (line : Text) :
    (isStart line = true ↔ Begins IsKeyword line) ∧ (isHeading line = true ↔ Begins IsOpening line) ∧
    (startExpression.search? line).isSome = isStart line ∧ (headingExpression.search? line).isSome = isHeading line ∧
    ∀ t, (isStart line = true → isStart (line ++ t) = true) ∧ (isHeading line = true → isHeading (line ++ t) = true) := by
  refine ⟨isStart_iff, isHeading_iff, ?_, ?_, fun t => ⟨fun h => ?_, fun h => ?_⟩⟩
  · rw [Bool.eq_iff_iff, isSome_startExpression, isStart_iff]
  · rw [Bool.eq_iff_iff, isSome_headingExpression, isHeading_iff]
  · exact isStart_iff.2 ((isStart_iff.1 h).append t)
  · exact isHeading_iff.2 ((isHeading_iff.1 h).append t)

/-- The long s, the Kelvin sign and the ideographic space are read; a word without its capital is not. -/
theorem classified_by_beginning_folded : Begins IsKeyword "\u017Fan\u212Aey-beta".toList ∧
    Begins IsOpening "environment\u3000variable\u017F: PATH".toList ∧ ¬ Begins IsOpening "returns: PATH".toList ∧
    isHeading ("Usage:".toList ++ "-->".toList) = true := by
  obtain ⟨hstart, -, -, -, -⟩ := classified_by_beginning "\u017Fan\u212Aey-beta".toList
  obtain ⟨-, htitle, -, -, -⟩ := classified_by_beginning "environment\u3000variable\u017F: PATH".toList
  obtain ⟨-, hsmall, -, -, -⟩ := classified_by_beginning "returns: PATH".toList
  obtain ⟨-, -, -, -, happend⟩ := classified_by_beginning "Usage:".toList
  exact ⟨hstart.1 (by decide), htitle.1 (by decide), mt hsmall.2 (by decide), (happend "-->".toList).2 (by decide)⟩

end Diagram

end Marginalia
