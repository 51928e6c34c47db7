import Marginalia.Diagram.Extract
import Marginalia.Proofs.Comment.Style
import Marginalia.Proofs.Text.Indentation
import Marginalia.Proofs.Text.Trim
/-!
# Where the lines of a cleaned body come from

Cleaning works line by line and then keeps a window of the lines.  So the lines of its result stand in the body one
below the other, and each is what remains of its line without white space and one sign of decoration
(`clean_traced`).  Only the first of them can lose white space to the final trimming.
-/
namespace Marginalia

open Text (trimStart trimEnd joinLines splitLines)

namespace CommentStyle

/-- The sign that decorates the lines of a comment. -/
def sign? : CommentStyle → Option Text
  | block => some ['*']
  | doubleQuoted | singleQuoted => none
  | docRun => some DocRun.sign

/-- White space with at most one sign of the style in it. -/
def IsMargin (style : CommentStyle) (t : Text) : Prop :=
  ∃ gap sign gap', t = gap ++ (sign ++ gap') ∧ (∀ c ∈ gap, isBlank c) ∧ (sign = [] ∨ style.sign? = some sign) ∧
    ∀ c ∈ gap', isBlank c

/-- `kept` is what remains of a line without a margin and the white space at its end. -/
def Remains (style : CommentStyle) (line kept : Text) : Prop :=
  ∃ margin gap, line = margin ++ (kept ++ gap) ∧ style.IsMargin margin ∧ (∀ c ∈ gap, isBlank c) ∧
    kept.getLast?.any isBlank = false

variable {style : CommentStyle}

theorem isMargin_nil : style.IsMargin [] := ⟨[], [], [], rfl, by simp, Or.inl rfl, by simp⟩

theorem IsMargin.append {margin gap : Text} (h : style.IsMargin margin) (hgap : ∀ c ∈ gap, isBlank c) :
    style.IsMargin (margin ++ gap) := by
  obtain ⟨before, sign, behind, rfl, hbefore, hsign, hbehind⟩ := h
  refine ⟨before, sign, behind ++ gap, by simp only [List.append_assoc], hbefore, hsign, fun c hc => ?_⟩
  rcases List.mem_append.1 hc with hc | hc
  · exact hbehind c hc
  · exact hgap c hc

theorem exists_stripSign (sign line : Text) : stripSign sign line = line ∨ ∃ gap gap',
    line = gap ++ (sign ++ (gap' ++ stripSign sign line)) ∧ (∀ c ∈ gap, isBlank c) ∧ ∀ c ∈ gap', isBlank c := by
  obtain ⟨gap, hgap, hline⟩ := Text.exists_trimStart line
  by_cases hsign : sign <+: trimStart line
  · right
    obtain ⟨inside, hinside⟩ := hsign
    rw [stripSign_signed hinside.symm]
    rw [← hinside] at hline
    cases inside with
    | nil => exact ⟨gap, [], hline, hgap, by simp⟩
    | cons c rest =>
      cases hc : isBlank c with
      | true => exact ⟨gap, [c], by simpa [hc] using hline, hgap, by simpa using hc⟩
      | false => exact ⟨gap, [], by simpa [hc] using hline, hgap, by simp⟩
  · exact Or.inl (stripSign_unsigned hsign)

/-- **Stripping takes a margin off.** -/
theorem exists_strip (style : CommentStyle) (line : Text) :
    ∃ margin, style.IsMargin margin ∧ line = margin ++ style.strip line := by
  have hsigned : ∀ sign, style.sign? = some sign → style.strip line = stripSign sign line →
      ∃ margin, style.IsMargin margin ∧ line = margin ++ style.strip line := by
    intro sign hsign hstrip
    rw [hstrip]
    rcases exists_stripSign sign line with h | ⟨gap, gap', h, hgap, hgap'⟩
    · exact ⟨[], isMargin_nil, h.symm⟩
    · refine ⟨gap ++ (sign ++ gap'), ⟨gap, sign, gap', rfl, hgap, Or.inr hsign, hgap'⟩, ?_⟩
      simpa only [List.append_assoc] using h
  cases style with
  | block => exact hsigned _ rfl rfl
  | docRun => exact hsigned _ rfl rfl
  | doubleQuoted => exact ⟨[], isMargin_nil, rfl⟩
  | singleQuoted => exact ⟨[], isMargin_nil, rfl⟩

end CommentStyle

namespace Diagram

theorem continuation_prefix (first : Text) (rest : List Text) : continuation first rest <+: rest := by
  have hzip : ((first :: rest).zip rest).map (·.2) = rest := List.map_snd_zip (by simp)
  have := (List.takeWhile_prefix (fun x => !isPast x.1 x.2) (l := (first :: rest).zip rest)).map (·.2)
  rwa [hzip] at this

theorem extract_window (lines : List Text) : ∃ window, window <:+: lines ∧ extract lines = (joinLines window).trim := by
  unfold extract
  split
  · exact ⟨lines, List.infix_refl _, rfl⟩
  · rename_i first rest hdrop
    refine ⟨first :: continuation first rest, ?_, rfl⟩
    have hsuffix : first :: rest <:+ lines := hdrop ▸ List.dropWhile_suffix _
    have hprefix : first :: continuation first rest <+: first :: rest :=
      List.cons_prefix_cons.2 ⟨rfl, continuation_prefix first rest⟩
    exact hprefix.isInfix.trans hsuffix.isInfix

theorem trim_clean (strip : Text → Text) (raw : Text) : (clean strip raw).trim = clean strip raw := by
  obtain ⟨window, -, hwindow⟩ := extract_window (Text.dedent (raw.splitLines.map fun line => (strip line).trimEnd))
  rw [clean, hwindow, Text.trim_trim]

/-- **The lines of a diagram are a window of the lines it is extracted from**, the first without its indentation. -/
theorem splitLines_extract {lines : List Text} (hone : ∀ line ∈ lines, '\n' ∉ line) (htrim : ∀ line ∈ lines, trimEnd line = line)
    (hne : extract lines ≠ []) :
    ∃ a first rest b, lines = a ++ first :: (rest ++ b) ∧ splitLines (extract lines) = trimStart first :: rest := by
  obtain ⟨window, hwindow, hextract⟩ := extract_window lines
  rw [hextract] at hne ⊢
  obtain ⟨a, first, rest, b, hlines, heq⟩ := Text.trim_joinLines (fun line hline => htrim line (hwindow.subset hline)) hne
  obtain ⟨p, q, rfl⟩ := hwindow
  refine ⟨p ++ a, first, rest, b ++ q, ?_, ?_⟩
  · rw [hlines]
    simp only [List.append_assoc, List.cons_append]
  · rw [heq]
    refine Text.splitLines_joinLines (List.cons_ne_nil _ _) fun line hline => ?_
    rcases List.mem_cons.1 hline with rfl | hline
    · exact Text.not_mem_trimStart (hone first (by rw [hlines]; simp))
    · exact hone line (by rw [hlines]; simp [hline])

theorem remains_of_dedent {style : CommentStyle} {line stripped kept : Text} {gap : Text}
    (hstripped : stripped = trimEnd (style.strip line)) (hgap : ∀ c ∈ gap, isBlank c) (h : stripped = gap ++ kept) :
    style.Remains line kept := by
  obtain ⟨margin, hmargin, hline⟩ := style.exists_strip line
  obtain ⟨behind, hbehind, hstrip⟩ := Text.exists_trimEnd (style.strip line)
  refine ⟨margin ++ gap, behind, ?_, hmargin.append hgap, hbehind, ?_⟩
  · rw [← hstripped, h] at hstrip
    rw [hstrip] at hline
    simpa only [List.append_assoc] using hline
  · refine Text.trimEnd_eq_self_iff.1 (Text.trimEnd_eq_self_of_suffix ?_ ⟨gap, h.symm⟩)
    rw [hstripped, Text.trimEnd_trimEnd]

/-- The lines of a window, the first without white space before it, in their places among all lines. -/
theorem getElem?_window {lines a rest b : List Text} {first : Text} (h : lines = a ++ first :: (rest ++ b)) {k : Nat}
    {kept : Text} (hk : (trimStart first :: rest)[k]? = some kept) :
    ∃ line gap, lines[a.length + k]? = some line ∧ (∀ c ∈ gap, isBlank c) ∧ line = gap ++ kept := by
  rw [h, List.getElem?_append_right (Nat.le_add_right _ _), Nat.add_sub_cancel_left]
  cases k with
  | zero =>
    obtain ⟨gap, hgap, hfirst⟩ := Text.exists_trimStart first
    rw [Option.some.inj hk] at hfirst
    exact ⟨first, gap, rfl, hgap, hfirst⟩
  | succ k =>
    rw [List.getElem?_cons_succ] at hk ⊢
    obtain ⟨hlt, -⟩ := List.getElem?_eq_some_iff.1 hk
    exact ⟨kept, [], by rw [List.getElem?_append_left hlt, hk], by simp, rfl⟩

theorem stripped_line (style : CommentStyle) (raw : Text) :
    ∀ line ∈ (splitLines raw).map (fun line => trimEnd (style.strip line)), trimEnd line = line ∧ '\n' ∉ line := by
  intro line hline
  obtain ⟨source, hsource, rfl⟩ := List.mem_map.1 hline
  refine ⟨Text.trimEnd_trimEnd _, fun hmem => Text.newline_not_mem_splitLines source hsource ?_⟩
  obtain ⟨margin, -, hstrip⟩ := style.exists_strip source
  obtain ⟨behind, -, htrim⟩ := Text.exists_trimEnd (style.strip source)
  rw [hstrip, htrim]
  simp [hmem]

theorem dedented_line {lines : List Text} (h : ∀ line ∈ lines, trimEnd line = line ∧ '\n' ∉ line) :
    ∀ line ∈ Text.dedent lines, trimEnd line = line ∧ '\n' ∉ line := by
  intro line hline
  obtain ⟨source, hsource, rfl⟩ := List.mem_map.1 hline
  obtain ⟨htrim, hnewline⟩ := h source hsource
  exact ⟨Text.trimEnd_eq_self_of_suffix htrim (List.drop_suffix _ _),
    fun hmem => hnewline ((List.drop_suffix _ _).subset hmem)⟩

/-- **The lines of a cleaned body stand in it one below the other**, and each is what remains of its line. -/
theorem clean_traced {style : CommentStyle} {raw : Text} (hne : clean style.strip raw ≠ []) :
    ∃ row, row + (splitLines (clean style.strip raw)).length ≤ (splitLines raw).length ∧
      ∀ k kept, (splitLines (clean style.strip raw))[k]? = some kept →
        ∃ line, (splitLines raw)[row + k]? = some line ∧ style.Remains line kept := by
  have hstripped := stripped_line style raw
  generalize hlines : (splitLines raw).map (fun line => trimEnd (style.strip line)) = lines at hstripped
  have hclean : clean style.strip raw = extract (Text.dedent lines) := by rw [← hlines]; rfl
  have hdedented := dedented_line hstripped
  rw [hclean] at hne ⊢
  obtain ⟨a, first, rest, b, hwindow, hcode⟩ :=
    splitLines_extract (fun line h => (hdedented line h).2) (fun line h => (hdedented line h).1) hne
  rw [hcode]
  refine ⟨a.length, ?_, fun k kept hk => ?_⟩
  · have hlength : (Text.dedent lines).length = (splitLines raw).length := by
      rw [Text.dedent, List.length_map, ← hlines, List.length_map]
    rw [← hlength, hwindow]
    simp only [List.length_append, List.length_cons]
    omega
  · obtain ⟨line, gap, hline, hgap, heq⟩ := getElem?_window hwindow hk
    rw [Text.dedent, List.getElem?_map, Option.map_eq_some_iff] at hline
    obtain ⟨stripped, hget, rfl⟩ := hline
    obtain ⟨indent, hindent, hdrop⟩ := Text.exists_drop_commonIndentation (List.mem_of_getElem? hget)
      (hstripped stripped (List.mem_of_getElem? hget)).1
    rw [← hlines, List.getElem?_map, Option.map_eq_some_iff] at hget
    obtain ⟨source, hsource, hstrip⟩ := hget
    refine ⟨source, hsource, @remains_of_dedent style source stripped kept (indent ++ gap) hstrip.symm ?_ ?_⟩
    · intro c hc
      rcases List.mem_append.1 hc with hc | hc
      · exact hindent c hc
      · exact hgap c hc
    · rw [List.append_assoc, ← heq]
      exact hdrop

end Diagram

end Marginalia
