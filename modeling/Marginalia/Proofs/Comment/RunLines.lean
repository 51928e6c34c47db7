import Marginalia.Proofs.Comment.RunExpression
import Marginalia.Proofs.Comment.Wording
/-!
# The runs of a text, line by line

A sign `//!` announces a run where a marker fills the rest of its line and the next line is one of documentation.  The
runs of a text are those that such signs announce, up to the ones inside a run that another sign before them announces
(`DocRun.Discovered`).  This leaves no choice: the one list of candidates of this shape is what the scan returns
(`DocRun.scan_by_lines`).
-/
namespace Marginalia

open Regex (dropChar exists_dropChar dropChar_append)
open Text (joinLines)

namespace DocRun

/-! ## Lines -/

/-- The sign, spaces and tabs, a marker, and spaces, tabs and carriage returns up to the end. -/
def AnnouncesBelow (line : Text) : Prop :=
  ∃ gap tag w colon tail : Text, line = sign ++ (gap ++ (tag ++ (w ++ (colon ++ tail)))) ∧
    (∀ c ∈ gap, c = ' ' ∨ c = '\t') ∧ (tag = [] ∨ tag = ['@']) ∧ w.map Char.toLower = Marker.word ∧
    (colon = [] ∨ colon = [':']) ∧ ∀ c ∈ tail, c = ' ' ∨ c = '\t' ∨ c = '\r'

/-- Spaces and tabs, and the sign behind them, begin the text. -/
def IsDocumentation (t : Text) : Prop := ∃ gap rest : Text, (∀ c ∈ gap, c = ' ' ∨ c = '\t') ∧ t = gap ++ (sign ++ rest)

/-- As many lines of documentation as follow one another, with their newlines; the last one may have none, at the end of
the text. -/
def IsRun (raw after : Text) : Prop :=
  ∃ lines : List Text, lines ≠ [] ∧ (∀ line ∈ lines, '\n' ∉ line ∧ IsDocumentation line) ∧
    (raw = joinLines lines ∧ after = [] ∨ raw = joinLines lines ++ ['\n'] ∧ ¬ IsDocumentation after)

/-- The line behind `before` begins with a sign that announces the lines `below`. -/
structure Announced (t before line below : Text) : Prop where
  parts : t = before ++ (line ++ '\n' :: below)
  one_line : '\n' ∉ line
  announces : AnnouncesBelow line
  documents : IsDocumentation below

/-- The place stands in one of the candidates. -/
def Covers (found : List Candidate) (place : Nat) : Prop := ∃ c ∈ found, c.start ≤ place ∧ place < c.stop

/-- What the discovery of runs has to return: candidates that follow one another, each from an announcing sign to the end
of the run below it, such that no announcing sign stands outside of them. -/
structure Discovered (t : Text) (found : List Candidate) : Prop where
  in_order : found.Pairwise fun a b => a.stop ≤ b.start
  sound : ∀ c ∈ found, ∃ before line after, Announced t before line (c.raw ++ after) ∧ IsRun c.raw after ∧
    c.start = before.byteLength ∧ c.stop = Text.byteLength (before ++ (line ++ '\n' :: c.raw))
  complete : ∀ before line below, Announced t before line below → Covers found before.byteLength

theorem isMarkerLine_iff {line : Text} : isMarkerLine line = true ↔ AnnouncesBelow line := by
  have htail : ∀ tail : Text, (tail.all fun c => isGap c || c == '\r') = true ↔
      ∀ c ∈ tail, c = ' ' ∨ c = '\t' ∨ c = '\r' := by
    intro tail
    simp [isGap, or_assoc]
  rw [isMarkerLine, Bool.and_eq_true, List.isPrefixOf_iff_prefix, Option.any_eq_true]
  constructor
  · rintro ⟨⟨u, rfl⟩, rest, hword, hall⟩
    rw [List.drop_left, Marker.dropAt_eq] at hword
    obtain ⟨w, after, hw, hlower, rfl⟩ := Marker.afterWord?_eq_some_iff.1 hword
    obtain ⟨tag, htag, hsign⟩ := exists_dropChar '@' (u.dropWhile isGap)
    obtain ⟨colon, hafter, hcolon⟩ := exists_dropChar ':' after
    refine ⟨u.takeWhile isGap, tag, w, colon, dropChar ':' after, ?_, fun c hc => ?_, hsign.imp_left And.left, hlower,
      hcolon.imp_left And.left, (htail _).1 hall⟩
    · rw [← hafter, ← hw, ← htag, List.takeWhile_append_dropWhile]
    · exact isGap_iff.1 (List.mem_takeWhile_imp hc)
  · rintro ⟨gap, tag, w, colon, tail, rfl, hgap, htag, hlower, hcolon, hblank⟩
    obtain ⟨c, u, rfl, hc⟩ := Marker.exists_letter hlower
    have hletter : isGap c = false ∧ c ≠ '@' := by
      refine ⟨Bool.eq_false_iff.2 fun h => ?_, ?_⟩
      · rcases isGap_iff.1 h with rfl | rfl <;> exact absurd hc (by decide)
      · rintro rfl
        exact absurd hc (by decide)
    have hmention : (tag ++ (c :: u ++ (colon ++ tail))).dropWhile isGap = tag ++ (c :: u ++ (colon ++ tail)) := by
      rcases htag with rfl | rfl
      · exact List.dropWhile_cons_of_neg (by simp [hletter.1])
      · rfl
    have hcolon' : tail.head? ≠ some ':' := fun h => by
      have := hblank ':' (List.mem_of_mem_head? h)
      revert this
      decide
    refine ⟨List.prefix_append _ _, tail, ?_, (htail tail).2 hblank⟩
    rw [List.drop_left, List.dropWhile_append_of_pos fun c hc => isGap_iff.2 (hgap c hc), hmention, Marker.dropAt_eq,
      dropChar_append (htag.imp_left fun h => ⟨h, by simp [hletter.2]⟩), Marker.afterWord?_append hlower,
      dropChar_append (hcolon.imp_left fun h => ⟨h, hcolon'⟩)]

theorem not_isDocumentation_iff {t : Text} : beginsLine t = false ↔ ¬ IsDocumentation t := by
  rw [← Bool.not_eq_true]
  exact not_congr beginsLine_iff

theorem run_of_isRun {raw after : Text} (h : IsRun raw after) : run (raw ++ after) = (raw, after) := by
  obtain ⟨lines, hne, hall, hraw⟩ := h
  induction lines generalizing raw with
  | nil => exact absurd rfl hne
  | cons line lines ih =>
    obtain ⟨hline, hdoc⟩ := hall line List.mem_cons_self
    have hbegins : beginsLine line = true := beginsLine_iff.2 hdoc
    by_cases hlines : lines = []
    · rw [hlines, Text.joinLines_singleton] at hraw
      rcases hraw with ⟨rfl, rfl⟩ | ⟨rfl, hafter⟩
      · rw [List.append_nil, run_last hline hbegins]
      · rw [List.append_assoc, List.singleton_append, run_line hline hbegins, run_not (not_isDocumentation_iff.2 hafter)]
    · obtain ⟨rest, rfl, hrest⟩ : ∃ rest, raw = line ++ '\n' :: rest ∧ (rest = joinLines lines ∧ after = [] ∨
          rest = joinLines lines ++ ['\n'] ∧ ¬ IsDocumentation after) := by
        rw [Text.joinLines_cons hlines] at hraw
        rcases hraw with ⟨rfl, hnil⟩ | ⟨rfl, hafter⟩
        · exact ⟨_, rfl, Or.inl ⟨rfl, hnil⟩⟩
        · exact ⟨_, by rw [List.append_assoc, List.cons_append], Or.inr ⟨rfl, hafter⟩⟩
      have hrun := ih hlines (fun l hl => hall l (List.mem_cons_of_mem line hl)) hrest
      rw [List.append_assoc, List.cons_append, run_line hline hbegins, hrun]

theorem IsRun.ne_nil {raw after : Text} (h : IsRun raw after) : raw ≠ [] := by
  obtain ⟨lines, hne, hall, hraw⟩ := h
  obtain ⟨line, lines, rfl⟩ := List.exists_cons_of_ne_nil hne
  rintro rfl
  have hnil : joinLines (line :: lines) = [] := by
    rcases hraw with ⟨hraw, -⟩ | ⟨hraw, -⟩
    · exact hraw.symm
    · exact absurd hraw.symm (by simp)
  have hline := Text.infix_joinLines_of_mem (List.mem_cons_self (a := line) (l := lines))
  rw [hnil, List.infix_nil] at hline
  obtain ⟨gap, rest, -, hdoc⟩ := (hall line List.mem_cons_self).2
  rw [hline] at hdoc
  exact absurd hdoc.symm (by simp [sign])

theorem run_eq_iff {raw after : Text} : run (raw ++ after) = (raw, after) ∧ raw ≠ [] ↔ IsRun raw after := by
  constructor
  · rintro ⟨hrun, hne⟩
    obtain ⟨lines, hlines, hall, hraw⟩ := run_lines hrun hne
    have hafter := beginsLine_run (raw ++ after)
    rw [hrun] at hafter
    exact ⟨lines, hlines, fun line h => (hall line h).imp_right beginsLine_iff.1,
      hraw.imp_right fun h => ⟨h, not_isDocumentation_iff.1 hafter⟩⟩
  · exact fun h => ⟨run_of_isRun h, h.ne_nil⟩

theorem notice?_eq_some_iff_isRun {t : Text} {n : Notice} : notice? t = some n ↔ ∃ line, '\n' ∉ line ∧
    AnnouncesBelow line ∧ t = line ++ '\n' :: (n.raw ++ n.after) ∧ IsRun n.raw n.after ∧ n.whole = line ++ '\n' :: n.raw := by
  rw [notice?_eq_some_iff]
  refine exists_congr fun line => and_congr_right fun _ => ?_
  rw [isMarkerLine_iff, ← run_eq_iff]
  simp only [and_assoc]

theorem notice?_of_isRun {line raw after : Text} (hline : '\n' ∉ line) (hannounces : AnnouncesBelow line)
    (hrun : IsRun raw after) : notice? (line ++ '\n' :: (raw ++ after)) = some ⟨line ++ '\n' :: raw, raw, after⟩ :=
  notice?_eq_some_iff_isRun.2 ⟨line, hline, hannounces, rfl, hrun, rfl⟩

theorem announced_iff {t before line below : Text} : Announced t before line below ↔
    t = before ++ (line ++ '\n' :: below) ∧ '\n' ∉ line ∧ notice? (line ++ '\n' :: below) ≠ none := by
  have hiff (hline : '\n' ∉ line) : notice? (line ++ '\n' :: below) ≠ none ↔ AnnouncesBelow line ∧ IsDocumentation below := by
    have hrun : (run below).1 ≠ [] ↔ IsDocumentation below := by
      rw [Ne, ← List.isEmpty_iff, run_isEmpty_iff, not_isDocumentation_iff, not_not]
    rw [notice?_line hline, ← isMarkerLine_iff, ← hrun]
    simp
  constructor
  · rintro ⟨hparts, hline, hannounces, hdoc⟩
    exact ⟨hparts, hline, (hiff hline).2 ⟨hannounces, hdoc⟩⟩
  · rintro ⟨hparts, hline, hnotice⟩
    exact ⟨hparts, hline, ((hiff hline).1 hnotice).1, ((hiff hline).1 hnotice).2⟩

/-! ## What is discovered -/

theorem discovered_scan (t : Text) : Discovered t (scan t) := by
  have hscan : scan t = (CommentStyle.docRun.sightings [] t).map Sighting.candidate :=
    CommentStyle.docRun.candidates_eq_map_sightings t
  rw [hscan]
  refine ⟨?_, fun c hc => ?_, fun before line below h => ?_⟩
  · rw [List.pairwise_map]
    refine (CommentStyle.docRun.pairwise_sightings [] t).imp fun {a b} ⟨passed, hpassed⟩ => ?_
    show Text.byteLength (a.before ++ a.whole) ≤ b.before.byteLength
    rw [← hpassed, Text.byteLength_append _ passed]
    exact Nat.le_add_right _ _
  · obtain ⟨s, hs, rfl⟩ := List.mem_map.1 hc
    obtain ⟨passed, after, ht, hbefore, hnotice⟩ := CommentStyle.sightings_sound hs
    obtain ⟨line, hline, hannounces, hparts, hrun, hwhole⟩ := notice?_eq_some_iff_isRun.1 hnotice
    have hwhole : s.whole = line ++ '\n' :: s.raw := hwhole
    have hbelow : s.whole ++ after = line ++ '\n' :: (s.raw ++ after) := hparts
    refine ⟨s.before, line, after, announced_iff.2 ⟨?_, hline, ?_⟩, hrun, rfl, ?_⟩
    · rw [hbefore, ht, hbelow]
      rfl
    · show notice? (line ++ '\n' :: (s.raw ++ after)) ≠ none
      rw [← hbelow]
      exact Option.ne_none_iff_exists'.2 ⟨_, hnotice⟩
    · show Text.byteLength (s.before ++ s.whole) = _
      rw [hwhole]
      rfl
  · obtain ⟨ht, -, hnotice⟩ := announced_iff.1 h
    obtain ⟨s, hs, hlow, hhigh⟩ := @CommentStyle.sightings_complete .docRun [] t before _ ht hnotice
    exact ⟨s.candidate, List.mem_map_of_mem hs, hlow, hhigh⟩

/-! ## One list only -/

section Covers

variable {c : Candidate} {l : List Candidate} {place : Nat}

theorem Covers.start_le (h : Covers (c :: l) place) (hc : c.start < c.stop)
    (hl : (c :: l).Pairwise fun a b => a.stop ≤ b.start) : c.start ≤ place := by
  obtain ⟨x, hx, hle, -⟩ := h
  rcases List.mem_cons.1 hx with rfl | hx
  · exact hle
  · have := List.rel_of_pairwise_cons hl hx
    omega

theorem Covers.tail (h : Covers (c :: l) place) (hplace : c.stop ≤ place) : Covers l place := by
  obtain ⟨x, hx, hle, hlt⟩ := h
  rcases List.mem_cons.1 hx with rfl | hx
  · exact absurd hlt (Nat.not_lt_of_le hplace)
  · exact ⟨x, hx, hle, hlt⟩

end Covers

theorem eq_of_covers : ∀ {l l' : List Candidate}, (l.Pairwise fun a b => a.stop ≤ b.start) →
    (l'.Pairwise fun a b => a.stop ≤ b.start) → (∀ c ∈ l, c.start < c.stop) → (∀ c ∈ l', c.start < c.stop) →
    (∀ c ∈ l, Covers l' c.start) → (∀ c ∈ l', Covers l c.start) → (∀ c ∈ l, ∀ c' ∈ l', c.start = c'.start → c = c') → l = l'
  | [], [], _, _, _, _, _, _, _ => rfl
  | [], c' :: l', _, _, _, _, _, h', _ => by
    obtain ⟨x, hx, -⟩ := h' c' List.mem_cons_self
    cases hx
  | c :: l, [], _, _, _, _, h, _, _ => by
    obtain ⟨x, hx, -⟩ := h c List.mem_cons_self
    cases hx
  | c :: l, c' :: l', hl, hl', hpos, hpos', h, h', heq => by
    have hle : c'.start ≤ c.start := (h c List.mem_cons_self).start_le (hpos' c' List.mem_cons_self) hl'
    have hge : c.start ≤ c'.start := (h' c' List.mem_cons_self).start_le (hpos c List.mem_cons_self) hl
    obtain rfl := heq c List.mem_cons_self c' List.mem_cons_self (Nat.le_antisymm hge hle)
    obtain ⟨hbehind, hrest⟩ := List.pairwise_cons.1 hl
    obtain ⟨hbehind', hrest'⟩ := List.pairwise_cons.1 hl'
    refine congrArg (c :: ·) (eq_of_covers hrest hrest' (fun x hx => hpos x (List.mem_cons_of_mem c hx))
      (fun x hx => hpos' x (List.mem_cons_of_mem c hx)) (fun x hx => ?_) (fun x hx => ?_)
      fun x hx y hy => heq x (List.mem_cons_of_mem c hx) y (List.mem_cons_of_mem c hy))
    · exact (h x (List.mem_cons_of_mem c hx)).tail (hbehind x hx)
    · exact (h' x (List.mem_cons_of_mem c hx)).tail (hbehind' x hx)

namespace Discovered

variable {t : Text} {found found' : List Candidate}

theorem start_lt_stop (h : Discovered t found) : ∀ c ∈ found, c.start < c.stop := by
  intro c hc
  obtain ⟨before, line, after, -, -, hstart, hstop⟩ := h.sound c hc
  rw [hstart, hstop, Text.byteLength_append, Text.byteLength_append, Text.byteLength_cons]
  have : 0 < '\n'.utf8Size := by decide
  omega

theorem covers (h : Discovered t found) (h' : Discovered t found') : ∀ c ∈ found, Covers found' c.start := by
  intro c hc
  obtain ⟨before, line, after, hannounced, -, hstart, -⟩ := h.sound c hc
  rw [hstart]
  exact h'.complete before line _ hannounced

theorem eq_of_start (h : Discovered t found) (h' : Discovered t found') :
    ∀ c ∈ found, ∀ c' ∈ found', c.start = c'.start → c = c' := by
  intro c hc c' hc' heq
  obtain ⟨before, line, after, hannounced, hrun, hstart, hstop⟩ := h.sound c hc
  obtain ⟨before', line', after', hannounced', hrun', hstart', hstop'⟩ := h'.sound c' hc'
  have htext := hannounced.parts.symm.trans hannounced'.parts
  obtain rfl := Text.eq_of_byteLength_eq htext (by rw [← hstart, ← hstart', heq])
  have hnotice := notice?_of_isRun hannounced.one_line hannounced.announces hrun
  have hnotice' := notice?_of_isRun hannounced'.one_line hannounced'.announces hrun'
  rw [List.append_cancel_left htext, hnotice'] at hnotice
  obtain ⟨hwhole, hraw, -⟩ := Notice.mk.inj (Option.some.inj hnotice)
  obtain ⟨start, stop, raw⟩ := c
  obtain ⟨start', stop', raw'⟩ := c'
  simp only at hstart hstop hstart' hstop' hwhole hraw
  rw [hstart, hstop, hstart', hstop', hwhole, hraw]

end Discovered

/-- **Discovery goes by lines**: the matches of the expression are the candidates of the one list that lines describe. -/
theorem scan_by_lines (t : Text) : scan t = (markerExpression.captures linesExpression t [] t).map captured ∧
    ∀ found, found = scan t ↔ Discovered t found := by
  refine ⟨scan_eq_captures t, fun found => ⟨fun h => h ▸ discovered_scan t, fun h => ?_⟩⟩
  have hscan := discovered_scan t
  exact eq_of_covers h.in_order hscan.in_order h.start_lt_stop hscan.start_lt_stop (h.covers hscan) (hscan.covers h)
    (h.eq_of_start hscan)

/-- The first sign of a line announces nothing, nor does one inside a run, and the last line has no newline. -/
example : scan "//! //! mermaid\n\t//! pie\n//! mermaid\n//!".toList =
    [⟨4, 40, "\t//! pie\n//! mermaid\n//!".toList⟩] := by
  decide +kernel

end DocRun

end Marginalia
