import Marginalia.Comment.Style
import Marginalia.Proofs.Comment.Discovery
import Marginalia.Proofs.Comment.DocRun
import Marginalia.Proofs.Text.Blank
/-!
# The comments of a style and their decoration

The comments of three of the styles are enclosed in delimiters, and so found by the plain scan (`candidates_eq`).
Stripping takes the decoration off a line that was decorated (`stripSign_decorated`), and white space at the end of a
line makes no difference to what is left of it but for such white space (`trimEnd_strip_concat`).
-/
namespace Marginalia

theorem start_lt_stop_scan {d : Delimiters} {head : Head} {t : Text} : ∀ c ∈ scan d head t, c.start < c.stop :=
  fun c hc => ((reads_scan d head t).bounds c hc).2

namespace CommentStyle

theorem start_lt_stop {t : Text} : ∀ {style : CommentStyle}, ∀ c ∈ style.candidates t, c.start < c.stop
  | .block => start_lt_stop_scan
  | .doubleQuoted => start_lt_stop_scan
  | .singleQuoted => start_lt_stop_scan
  | .docRun => DocRun.start_lt_stop_scanFrom (by simp)

/-- What the comments of a style are enclosed in and how they announce a diagram. -/
def enclosure? : CommentStyle → Option (Delimiters × Head)
  | block => some (blockDelimiters, .block)
  | doubleQuoted => some (doubleQuotes, .docstring)
  | singleQuoted => some (singleQuotes, .docstring)
  | docRun => none

variable {style : CommentStyle} {d : Delimiters} {head : Head}

theorem candidates_eq (h : style.enclosure? = some (d, head)) (t : Text) : style.candidates t = scanPlainly d head 0 t := by
  have hscan : style.candidates t = scan d head t := by
    cases style <;> cases h <;> rfl
  rw [hscan, scan, Search.finish_start]

theorem candidates_eq_nil (h : style.enclosure? = some (d, head)) {t : Text} (hopen : ¬ d.opener <:+: t) :
    style.candidates t = [] := by
  rw [candidates_eq h, scanPlainly_eq_nil hopen]

theorem candidates_single (h : style.enclosure? = some (d, head)) {t before body raw : Text}
    (hopen : Text.IsFirst d.opener t before (body ++ (d.closer ++ [])))
    (hclose : Text.IsFirst d.closer (body ++ (d.closer ++ [])) body []) (hraw : head.announced? body = some raw) :
    style.candidates t = [⟨before.byteLength, t.byteLength, raw⟩] := by
  have hstop : t.byteLength = before.byteLength + d.span body := by
    rw [hopen.eq, Text.byteLength_append, d.span_eq, List.append_nil]
  rw [candidates_eq h, scanPlainly_of_isFirst hopen, scanPlainly_taken hclose hraw, scanPlainly, Nat.zero_add, hstop]

/-! ## Decoration -/

theorem stripSign_signed {sign line : Text} : ∀ {inside : Text}, Text.trimStart line = sign ++ inside →
    stripSign sign line = match inside with
      | [] => []
      | c :: rest => if isBlank c then rest else c :: rest := by
  intro inside h
  rw [stripSign, h, if_pos (List.isPrefixOf_iff_prefix.2 (List.prefix_append _ _)), List.drop_left]
  rfl

theorem stripSign_unsigned {sign line : Text} (h : ¬ sign <+: Text.trimStart line) : stripSign sign line = line := by
  rw [stripSign, if_neg (mt List.isPrefixOf_iff_prefix.1 h)]

theorem stripSign_decorated {c : Char} {sign gap : Text} (hc : isBlank c = false) (hgap : ∀ x ∈ gap, isBlank x)
    (line : Text) : stripSign (c :: sign) (gap ++ (c :: sign ++ ' ' :: line)) = line := by
  have htrim : Text.trimStart (gap ++ (c :: sign ++ ' ' :: line)) = c :: sign ++ ' ' :: line := by
    rw [Text.trimStart_append hgap, List.cons_append, Text.trimStart_cons hc]
  exact stripSign_signed htrim

theorem stripSign_blank {c : Char} {sign gap : Text} (hgap : ∀ x ∈ gap, isBlank x) : stripSign (c :: sign) gap = gap := by
  exact stripSign_unsigned (by simp [Text.trimStart_eq_nil hgap])

theorem trimEnd_stripSign_concat {sign : Text} (hne : sign ≠ []) (hsign : ∀ m ∈ sign, isBlank m = false) {c : Char}
    (hc : isBlank c = true) (line : Text) :
    Text.trimEnd (stripSign sign (line ++ [c])) = Text.trimEnd (stripSign sign line) := by
  have hone : Text.trimStart [c] = [] := List.dropWhile_cons_of_pos hc
  have hstart := Text.trimStart_append_eq line [c]
  by_cases hopen : sign <+: Text.trimStart line
  · obtain ⟨inside, hinside⟩ := hopen
    have hline : Text.trimStart (line ++ [c]) = sign ++ (inside ++ [c]) := by
      rw [hstart, ← hinside, if_neg (by simp [hne]), List.append_assoc]
    rw [stripSign_signed hline, stripSign_signed hinside.symm]
    cases inside with
    | nil => simp [hc]
    | cons x rest =>
      cases hx : isBlank x with
      | true => simpa [hx] using Text.trimEnd_concat hc rest
      | false => simpa [hx] using Text.trimEnd_concat hc (x :: rest)
  · have hline : ¬ sign <+: Text.trimStart (line ++ [c]) := by
      rw [hstart]
      split
      · rw [hone, List.prefix_nil]
        exact hne
      · rwa [Text.prefix_append_cons_iff (Text.not_mem_of_isBlank hsign hc)]
    rw [stripSign_unsigned hopen, stripSign_unsigned hline, Text.trimEnd_concat hc]

/-- **White space at the end of a line is trimmed**, whatever decorates the line. -/
theorem trimEnd_strip_concat (style : CommentStyle) {c : Char} (hc : isBlank c = true) (line : Text) :
    Text.trimEnd (style.strip (line ++ [c])) = Text.trimEnd (style.strip line) := by
  cases style with
  | block => exact trimEnd_stripSign_concat (by decide) (Text.isBlank_eq_false_of_all (by decide)) hc line
  | doubleQuoted => exact Text.trimEnd_concat hc line
  | singleQuoted => exact Text.trimEnd_concat hc line
  | docRun => exact trimEnd_stripSign_concat (by decide) (Text.isBlank_eq_false_of_all (by decide)) hc line

end CommentStyle

end Marginalia
