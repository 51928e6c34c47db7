import Mathlib.Data.List.Basic
import Marginalia.Proofs.Comment.Style
import Marginalia.Proofs.LineIndex
/-!
# What a document is parsed to

A text that is not too long parses, and to nothing but the blocks of its comments (`parse_ofList`).  What a block says
is its finding: the markup comes from the body of the comment alone (`code?`), and the lines are the numbers of
newlines before the comment and before its end (`findings_blocks`).
-/
namespace Marginalia

namespace Document

/-! ## The texts that parse -/

theorem checkLength_ofList (t : Text) :
    checkLength (String.ofList t) = if t.length ≤ maximumLength then .ok () else .error (.tooLong t.length) := by
  have hle := Text.length_le_byteLength t
  unfold checkLength
  rw [Text.utf8ByteSize_ofList, String.length_ofList]
  split
  · rw [if_pos (by omega)]
  · rfl

/-- **A text parses exactly if it is not too long.** -/
theorem parse_ofList (language : Language) (t : Text) :
    parse language (String.ofList t) =
      if t.length ≤ maximumLength then .ok (blocks language.grammar.styles language t)
      else .error (.tooLong t.length) := by
  rw [parse, parseWith, checkLength_ofList, String.toList_ofList]
  split <;> rfl

theorem parse_of_length_le (language : Language) {t : Text} (h : t.length ≤ maximumLength) :
    parse language (String.ofList t) = .ok (blocks language.grammar.styles language t) := by
  rw [parse_ofList, if_pos h]

theorem parse_eq_ok_iff {language : Language} {t : Text} {found : List Block} :
    parse language (String.ofList t) = .ok found ↔
      t.length ≤ maximumLength ∧ found = blocks language.grammar.styles language t := by
  rw [parse_ofList]
  by_cases hlen : t.length ≤ maximumLength
  · simp [hlen, eq_comm]
  · simp [hlen]

/-! ## What a block says -/

/-- The markup that a comment of the given style holds behind its marker, if it is accepted. -/
def code? (style : CommentStyle) (raw : Text) : Option DiagramCode :=
  if raw.isEmpty ∨ Diagram.isRejected (Diagram.clean style.strip raw) then none
  else (DiagramCode.ofText (Diagram.clean style.strip raw)).toOption

/-- Where nothing is left to clean, the markup is rejected: the code depends on what cleaning leaves alone. -/
theorem code?_eq_clean (style : CommentStyle) (raw : Text) : code? style raw =
    if Diagram.isRejected (Diagram.clean style.strip raw) then none
    else (DiagramCode.ofText (Diagram.clean style.strip raw)).toOption := by
  have hempty : Diagram.isRejected (Diagram.clean style.strip []) = true := by
    cases style <;> decide
  rw [code?]
  cases raw with
  | nil => rw [if_pos hempty, if_pos (Or.inr hempty)]
  | cons c raw => simp

theorem code?_congr {style : CommentStyle} {raw raw' : Text}
    (h : Diagram.clean style.strip raw' = Diagram.clean style.strip raw) : code? style raw' = code? style raw := by
  rw [code?_eq_clean, code?_eq_clean, h]

theorem code?_eq_some {style : CommentStyle} {raw : Text} {code : DiagramCode}
    (hclean : Diagram.clean style.strip raw = code.markup) (haccepted : Diagram.isRejected code.markup = false) :
    code? style raw = some code := by
  rw [code?_eq_clean, hclean, if_neg (Bool.eq_false_iff.1 haccepted), DiagramCode.ofText,
    dif_neg (by rw [code.trimmed]; exact code.nonempty)]
  obtain ⟨markup, htrim, hmarkup⟩ := code
  simp only [htrim]
  rfl

theorem block?_eq (language : Language) (style : CommentStyle) (index : LineIndex) (c : Candidate) :
    block? language style index c =
      (code? style c.raw).bind fun code => (index.range? c.start c.stop).map fun range => ⟨code, range, language⟩ := by
  unfold block? code?
  by_cases hempty : c.raw.isEmpty
  · simp [hempty]
  · by_cases hrejected : Diagram.isRejected (Diagram.clean style.strip c.raw)
    · simp [hempty, hrejected]
    · rw [if_neg hempty, if_neg hrejected, if_neg (not_or.2 ⟨hempty, hrejected⟩)]
      cases (DiagramCode.ofText (Diagram.clean style.strip c.raw)).toOption with
      | none => rfl
      | some code => cases index.range? c.start c.stop <;> rfl

theorem range?_ofText {t : Text} (hlen : t.length ≤ maximumLength) {start stop : Nat} (hlt : start < stop) :
    ∃ range, (LineIndex.ofText t).range? start stop = some range ∧
      range.first.value = t.lineOf start ∧ range.last.value = t.lineOf stop := by
  cases hrange : (LineIndex.ofText t).range? start stop with
  | some range => exact ⟨range, rfl, (LineIndex.range?_eq_some_iff.1 hrange).2⟩
  | none =>
    have := t.lineOf_le_length stop
    have := LineIndex.range?_eq_none_iff.1 hrange
    unfold maximumLength at hlen
    omega

/-- What a block says: a diagram, the lines that its comment takes, and the language. -/
structure Finding where
  code : DiagramCode
  first : Nat
  last : Nat
  language : Language
deriving DecidableEq, Repr

def finding (block : Block) : Finding :=
  ⟨block.code, block.range.first.value, block.range.last.value, block.language⟩

/-- The finding in a text with `lines` more lines in front. -/
def Finding.below (lines : Nat) (f : Finding) : Finding :=
  { f with first := lines + f.first, last := lines + f.last }

/-- What a comment of a text is found to say. -/
def finding? (language : Language) (style : CommentStyle) (t : Text) (c : Candidate) : Option Finding :=
  (code? style c.raw).map fun code => ⟨code, t.lineOf c.start, t.lineOf c.stop, language⟩

theorem map_finding_block? {t : Text} (hlen : t.length ≤ maximumLength) (language : Language) (style : CommentStyle)
    {c : Candidate} (hlt : c.start < c.stop) :
    (block? language style (LineIndex.ofText t) c).map finding = finding? language style t c := by
  obtain ⟨range, hrange, hfirst, hlast⟩ := range?_ofText hlen hlt
  rw [block?_eq, hrange, finding?]
  cases code? style c.raw with
  | none => rfl
  | some code => simp [finding, hfirst, hlast]

theorem blocks_pair (first second : CommentStyle) (language : Language) (t : Text) :
    blocks [first, second] language t = blocks [first] language t ++ blocks [second] language t := by
  simp [blocks]

/-- The comments of a text that announce a diagram, style by style. -/
def comments (styles : List CommentStyle) (t : Text) : List (CommentStyle × Candidate) :=
  styles.flatMap fun style => (style.candidates t).map (style, ·)

/-- **The blocks of a text say what its comments hold, style by style.** -/
theorem findings_blocks {t : Text} (hlen : t.length ≤ maximumLength) (styles : List CommentStyle)
    (language : Language) :
    (blocks styles language t).map finding =
      (comments styles t).filterMap fun c => finding? language c.1 t c.2 := by
  rw [blocks, comments, List.map_flatMap, List.filterMap_flatMap]
  congr 1
  funext style
  rw [List.map_filterMap, List.filterMap_map]
  exact List.filterMap_congr fun c hc => map_finding_block? hlen language style (CommentStyle.start_lt_stop c hc)

end Document

end Marginalia
