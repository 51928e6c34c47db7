import Marginalia.Proofs.Comment.Expression
import Marginalia.Proofs.Comment.Sighting
/-!
# Runs of documentation lines as a regular expression

A run is one match of a regular expression: a marker line, and behind it, captured, one or more documentation lines, each
of which ends with a newline or with the text.  The matches of a text, from left to right, are its runs
(`DocRun.scan_eq_captures`).
-/
namespace Marginalia

namespace DocRun

open Regex (first?_seq first?_either first?_char first?_optional first?_many first?_literal first?_finish)

/-- The pattern `[ \t\r]*\n` -/
def endingExpression : Regex := .seq (.many (.one fun c => isGap c || c == '\r')) (.char '\n')

/-- The pattern `@?mermaid:?[ \t\r]*\n` -/
def titleExpression : Regex := .seq (.optional (.char '@')) (.seq Marker.mention endingExpression)

/-- The pattern `//![ \t]*@?mermaid:?[ \t\r]*\n` -/
def markerExpression : Regex := .seq (.literal sign) (.seq (.many (.one isGap)) titleExpression)

/-- The pattern `[^\n]*(?:\n|\z)` -/
def restExpression : Regex := .seq (.many (.one (· != '\n'))) (.either (.char '\n') .finish)

/-- The pattern `[ \t]*//![^\n]*(?:\n|\z)` -/
def lineExpression : Regex := .seq (.many (.one isGap)) (.seq (.literal sign) restExpression)

/-- The pattern `(?:[ \t]*//![^\n]*(?:\n|\z))+` -/
def linesExpression : Regex := .atLeastOnce lineExpression

section Parts

variable {β : Type} {whole : Text} {k : Text → Option β}

/-! ## A marker line -/

/-- What follows the newline behind spaces, tabs and carriage returns. -/
def afterEnding? (t : Text) : Option Text :=
  match t.dropWhile fun c => isGap c || c == '\r' with
  | '\n' :: below => some below
  | _ => none

/-- What follows the line of a text that begins with a marker. -/
def afterTitle? (t : Text) : Option Text := (Marker.afterWord? (Marker.dropAt t)).bind afterEnding?

theorem afterMarkerLine?_eq (t : Text) : afterMarkerLine? t =
    if sign.isPrefixOf t then afterTitle? ((t.drop sign.length).dropWhile isGap) else none := by
  unfold afterMarkerLine? afterTitle?
  refine if_congr Iff.rfl ?_ rfl
  cases Marker.afterWord? (Marker.dropAt ((t.drop sign.length).dropWhile isGap)) <;> rfl

theorem afterTitle?_gap {c : Char} (hc : isGap c = true) (t : Text) : afterTitle? (c :: t) = none := by
  rcases isGap_iff.1 hc with rfl | rfl <;> rfl

theorem first?_endingExpression (t : Text) : endingExpression.first? whole k t = (afterEnding? t).bind k := by
  rw [endingExpression, first?_seq, first?_many, first?_char, afterEnding?]
  · cases t.dropWhile (fun c => isGap c || c == '\r') with
    | nil => rfl
    | cons c below => by_cases hc : c = '\n' <;> simp [hc]
  · intro c rest hc _
    rw [Bool.or_eq_true, isGap_iff, beq_iff_eq] at hc
    rw [first?_char]
    rcases hc with (rfl | rfl) | rfl <;> rfl

theorem first?_titleExpression (t : Text) : titleExpression.first? whole k t = (afterTitle? t).bind k := by
  have hmention (u : Text) : (Regex.seq Marker.mention endingExpression).first? whole k u =
      ((Marker.afterWord? u).bind afterEnding?).bind k := by
    rw [first?_seq, Marker.first?_mention, Option.bind_assoc, funext first?_endingExpression]
    intro rest _
    rw [first?_endingExpression]
    rfl
  rw [titleExpression, first?_seq, first?_optional, hmention, afterTitle?, Marker.dropAt_eq]
  intro rest _
  rw [hmention]
  rfl

theorem first?_markerExpression (t : Text) : markerExpression.first? whole k t = (afterMarkerLine? t).bind k := by
  have hgap (u : Text) : (Regex.seq (.many (.one isGap)) titleExpression).first? whole k u =
      (afterTitle? (u.dropWhile isGap)).bind k := by
    rw [first?_seq, first?_many, first?_titleExpression]
    intro c rest hc _
    rw [first?_titleExpression, afterTitle?_gap hc, Option.bind_none]
  rw [markerExpression, first?_seq, first?_literal, hgap, afterMarkerLine?_eq]
  cases sign.isPrefixOf t <;> rfl

/-! ## Documentation lines -/

/-- What follows the first line of a text. -/
def below (t : Text) : Text := (t.dropWhile (· != '\n')).tail

theorem below_append {s : Text} (h : '\n' ∉ s) (t : Text) : below (s ++ t) = below t := by
  rw [below, List.dropWhile_append_of_pos (ne_newline h), ← below]

theorem below_line {line : Text} (h : '\n' ∉ line) (rest : Text) : below (line ++ '\n' :: rest) = rest := below_append h _

theorem below_last {line : Text} (h : '\n' ∉ line) : below line = [] := by
  have := below_append h []
  rwa [List.append_nil] at this

theorem length_below_lt {t : Text} (h : t ≠ []) : (below t).length < t.length := by
  have hpos := List.length_pos_iff.2 h
  have hle := (List.dropWhile_suffix (l := t) (· != '\n')).length_le
  rw [below, List.length_tail]
  omega

theorem first?_restExpression (t : Text) : restExpression.first? whole k t = k (below t) := by
  rw [restExpression, first?_seq, first?_many, first?_either, first?_char, first?_finish, below]
  · cases hrest : t.dropWhile (· != '\n') with
    | nil => rfl
    | cons c rest =>
      have hc := List.head?_dropWhile_not (· != '\n') t
      simp only [hrest, List.head?_cons, bne_eq_false_iff_eq] at hc
      simp [hc]
  · intro c rest hc _
    rw [first?_either, first?_char, first?_finish]
    simp [bne_iff_ne.1 hc]

theorem first?_lineExpression (t : Text) :
    lineExpression.first? whole k t = if beginsLine t then k (below t) else none := by
  have hsigned (u : Text) : (Regex.seq (.literal sign) restExpression).first? whole k u =
      if sign.isPrefixOf u then k (below u) else none := by
    rw [first?_seq, first?_literal, first?_restExpression]
    refine ite_congr rfl (fun h => ?_) fun _ => rfl
    obtain ⟨rest, rfl⟩ := List.isPrefixOf_iff_prefix.1 h
    rw [List.drop_left, below_append (by decide)]
  have hgap : '\n' ∉ t.takeWhile isGap := fun h => absurd (List.mem_takeWhile_imp h) (by decide)
  have hbelow : below t = below (t.dropWhile isGap) := by
    conv => lhs; rw [← List.takeWhile_append_dropWhile (p := isGap) (l := t), below_append hgap]
  rw [lineExpression, first?_seq, first?_many, hsigned, beginsLine, hbelow]
  intro c rest hc _
  rw [hsigned]
  rcases isGap_iff.1 hc with rfl | rfl <;> rfl

theorem head?_lineExpressions_step (t : Text) : ((Regex.many lineExpression).ends whole t).head? =
    if beginsLine t then ((Regex.many lineExpression).ends whole (below t)).head? else some t := by
  rw [Regex.ends, Regex.ends, Regex.head?_repeats, Regex.head?_ends, first?_lineExpression]
  cases hbegins : beginsLine t with
  | false => rfl
  | true =>
    have hne : t ≠ [] := by
      rintro rfl
      cases hbegins
    exact if_pos (length_below_lt hne)

/-- As many documentation lines as there are, and what follows them is what follows the run. -/
theorem head?_lineExpressions (whole t : Text) : ((Regex.many lineExpression).ends whole t).head? = some (run t).2 := by
  induction t using Text.lines_induction with
  | last t h =>
    rw [head?_lineExpressions_step]
    cases hbegins : beginsLine t with
    | false => rw [run_not hbegins]; rfl
    | true =>
      rw [if_pos rfl, below_last h, head?_lineExpressions_step, run_last h hbegins]
      rfl
  | line line rest hline ih =>
    rw [head?_lineExpressions_step, beginsLine_line]
    cases hbegins : beginsLine line with
    | false =>
      rw [run_not (by rwa [beginsLine_line])]
      rfl
    | true => rw [if_pos rfl, below_line hline, ih, run_line hline hbegins]

theorem head?_linesExpression (t : Text) :
    (linesExpression.ends whole t).head? = if beginsLine t then some (run t).2 else none := by
  have hlines := head?_lineExpressions whole t
  rw [head?_lineExpressions_step] at hlines
  rw [linesExpression, Regex.atLeastOnce, Regex.head?_ends, first?_seq, first?_lineExpression, ← Regex.head?_ends]
  cases hbegins : beginsLine t with
  | false => rfl
  | true => rwa [hbegins, if_pos rfl] at hlines

end Parts

/-! ## Runs -/

theorem run_isEmpty_iff {t : Text} : (run t).1.isEmpty = true ↔ beginsLine t = false := by
  refine ⟨fun h => ?_, run_isEmpty⟩
  have hbehind := beginsLine_run t
  have hparts := run_parts t
  rw [List.isEmpty_iff.1 h, List.nil_append] at hparts
  rwa [hparts] at hbehind

/-- **The preferred match at the start of a text is the run that it begins with.** -/
theorem head?_splits (whole t : Text) : (Regex.splits markerExpression linesExpression whole t).head? =
    (notice? t).map fun n => (n.raw ++ n.after, n.after) := by
  rw [Regex.head?_splits, first?_markerExpression, notice?]
  cases afterMarkerLine? t with
  | none => rfl
  | some rest =>
    rw [Option.bind_some, Option.bind_some, ← Regex.map_head?_ends, head?_linesExpression]
    cases hbegins : beginsLine rest with
    | false => rw [if_pos (run_isEmpty hbegins)]; rfl
    | true =>
      have hne : ¬ (run rest).1.isEmpty = true := by
        rw [run_isEmpty_iff, hbegins]
        exact Bool.noConfusion
      rw [if_neg hne, if_pos rfl, Option.map_some, Option.map_some, run_parts]

/-- A match with its captured lines, as a candidate. -/
def captured (c : Regex.Capture) : Candidate := ⟨c.before.byteLength, Text.byteLength (c.before ++ c.whole), c.group⟩

theorem take_length_sub {α : Type} {t s rest : List α} (h : t = s ++ rest) : t.take (t.length - rest.length) = s := by
  rw [h, List.length_append, Nat.add_sub_cancel, List.take_left]

theorem captures_eq (whole before t : Text) :
    (markerExpression.captures linesExpression whole before t).map captured =
      (CommentStyle.docRun.sightings before t).map Sighting.candidate := by
  fun_induction CommentStyle.sightings .docRun before t with
  | case1 before => rw [Regex.captures, List.map_nil, List.map_nil]
  | case2 before c t n hn _ ih =>
    obtain ⟨hparts, -⟩ := CommentStyle.notice?_parts hn
    have hlt := CommentStyle.length_after_lt hn
    have hnotice : notice? (c :: t) = some n := hn
    have htaken : (c :: t).take (t.length + 1 - n.after.length) = n.whole := take_length_sub hparts
    have hgroup : (n.raw ++ n.after).take ((n.raw ++ n.after).length - n.after.length) = n.raw := take_length_sub rfl
    rw [Regex.captures, head?_splits, hnotice, Option.map_some]
    dsimp only
    rw [if_pos hlt, htaken, hgroup, List.map_cons, List.map_cons, ih]
    rfl
  | case3 before c t hn ih =>
    have hnotice : notice? (c :: t) = none := hn
    rw [Regex.captures, head?_splits, hnotice, Option.map_none]
    exact ih

/-- **The runs of a text are the matches of the expression.** -/
theorem scan_eq_captures (t : Text) : scan t = (markerExpression.captures linesExpression t [] t).map captured :=
  (CommentStyle.docRun.candidates_eq_map_sightings t).trans (captures_eq t [] t).symm

end DocRun

end Marginalia
