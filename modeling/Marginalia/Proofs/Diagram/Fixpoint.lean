import Marginalia.Proofs.Diagram.Hanging
/-!
# Cleaned markup stays as it is

Tidy markup is what cleaning leaves alone (`clean_eq_self_iff`).  Its first line is not indented, so nothing is taken off
the lines; a diagram starts with that line and goes on to the last, or there is none, and all lines are kept either way;
and no white space stands at the ends.  As what cleaning leaves is tidy, cleaning it once more changes nothing, whatever
decorated its lines before (`clean_clean`).
-/
namespace Marginalia

open Text (joinLines splitLines trim trimEnd trimStart)

namespace Diagram

variable {t : Text}

theorem tidy_nil : Tidy [] := tidy_of_prose rfl rfl (by decide) (by decide)

namespace Tidy

variable (h : Tidy t)
include h

theorem trim_eq : trim t = t := by
  have hstart : trimStart t = t := by
    cases t with
    | nil => rfl
    | cons c rest => exact Text.trimStart_cons (by simpa using h.no_blank_before)
  rw [trim, hstart, Text.trimEnd_eq_self h.no_blank_behind]

theorem trimEnd_line {line : Text} (hline : line ∈ splitLines t) : trimEnd line = line :=
  Text.trimEnd_eq_self (h.no_trailing_blank line hline)

/-- The first line of tidy markup is neither empty nor indented. -/
theorem exists_first (hne : t ≠ []) : ∃ first rest, splitLines t = first :: rest ∧ first ≠ [] ∧ trimStart first = first := by
  obtain ⟨first, rest, hsplit, hjoin, -⟩ := Text.exists_hang [] t
  have hbefore := h.no_blank_before
  cases first with
  | nil =>
    -- a text that begins with a newline begins with white space
    cases rest with
    | nil => exact absurd hjoin hne
    | cons next rest =>
      rw [hjoin, Text.joinLines_cons (List.cons_ne_nil _ _)] at hbefore
      cases hbefore
  | cons c line =>
    refine ⟨c :: line, rest, hsplit, List.cons_ne_nil _ _, Text.trimStart_cons ?_⟩
    rw [hjoin, show c :: line = [c] ++ line from rfl, Text.joinLines_append_head] at hbefore
    simpa using hbefore

/-- **The lines of tidy markup are kept.** -/
theorem extract_eq : extract (splitLines t) = t := by
  have hall : (joinLines (splitLines t)).trim = t := by rw [Text.joinLines_splitLines, h.trim_eq]
  by_cases hstarted : Started t
  · have hheading := h.no_heading hstarted
    have hpair := h.no_blank_pair hstarted
    obtain ⟨first, rest, hsplit, hfirst⟩ := hstarted
    rw [hsplit] at hheading hpair hall ⊢
    have hchain := isChain_of_no_heading hheading hpair
    have := extract_of_start (List.forall_mem_nil _) hfirst rest
    rwa [List.nil_append, continuation_eq_self hchain, hall] at this
  · refine (extract_of_prose fun line hline => Bool.eq_false_iff.2 fun hstart => ?_).trans hall
    exact hstarted (h.starts_first.1 ⟨line, hline, hstart⟩)

/-- **Tidy markup is left alone.** -/
theorem clean_eq : clean id t = t := by
  by_cases hne : t = []
  · rw [hne]
    decide
  · have hlines : (splitLines t).map (fun line => trimEnd (id line)) = splitLines t :=
      (List.map_congr_left fun line hline => h.trimEnd_line hline).trans (List.map_id _)
    obtain ⟨first, rest, hsplit, hfirst, hflush⟩ := h.exists_first hne
    have hdedent : Text.dedent (splitLines t) = splitLines t := by rw [hsplit, Text.dedent_flush hflush hfirst]
    rw [clean, hlines, hdedent, h.extract_eq]

end Tidy

theorem tidy_of_clean {style : CommentStyle} {raw : Text} (h : clean style.strip raw = t) : Tidy t := by
  by_cases hne : t = []
  · exact hne ▸ tidy_nil
  · exact h ▸ tidy_clean (h.symm ▸ hne)

/-- **Tidy markup is just what cleaning leaves alone.** -/
theorem clean_eq_self_iff : clean id t = t ↔ Tidy t :=
  ⟨fun h => @tidy_of_clean t .doubleQuoted t h, Tidy.clean_eq⟩

/-- **What was cleaned is clean.**  Whatever decorated its lines, a cleaned body is left alone by a second cleaning, and
is a diagram's code as it stands unless it is empty.  So the code of every block is. -/
theorem clean_clean :
    (∀ (style : CommentStyle) (raw : Text), clean id (clean style.strip raw) = clean style.strip raw ∧
      (clean style.strip raw ≠ [] → ∃ code, DiagramCode.ofText (clean style.strip raw) = .ok code ∧
        code.markup = clean style.strip raw)) ∧
    ∀ (language : Language) (t : Text) (found : List Block), Document.parse language (String.ofList t) = .ok found →
      ∀ block ∈ found, clean CommentStyle.doubleQuoted.strip block.code.markup = block.code.markup ∧
        DiagramCode.ofText block.code.markup = .ok block.code := by
  have hcode : ∀ code : DiagramCode, DiagramCode.ofText code.markup = .ok code := fun code => by
    obtain ⟨markup, htrim, hne⟩ := code
    rw [DiagramCode.ofText, dif_neg (by rwa [htrim])]
    simp only [htrim]
  refine ⟨fun style raw => ⟨(tidy_of_clean rfl).clean_eq, fun hne => ?_⟩, fun language t found hparse block hblock => ?_⟩
  · exact ⟨_, hcode ⟨clean style.strip raw, trim_clean style.strip raw, hne⟩, rfl⟩
  · obtain ⟨hlen, rfl⟩ := Document.parse_eq_ok_iff.1 hparse
    obtain ⟨style, -, -, -, -, -, -, raw, -, -, -, hfound, -, -⟩ := Document.exists_comment hlen hblock
    exact ⟨(tidy_of_clean (Document.code?_markup hfound).symm).clean_eq, hcode _⟩

end Diagram

end Marginalia
