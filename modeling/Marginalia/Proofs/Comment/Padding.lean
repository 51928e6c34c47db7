import Marginalia.Proofs.Comment.Sighting
import Marginalia.Proofs.Text.Padding
/-!
# Comments of a padded text

Markers, openers and closers hold no white space, and the white space between them is skipped in any amount.  So the
comment of a padded text announces its diagram just where the comment of the text does, and what it holds behind its
marker is padded likewise (`leading?_pad`, `inBlockFrom?_pad`).  A docstring's marker ends its line, so there the padding
behind that newline is kept (`inDocstring?_pad`).
-/
namespace Marginalia

open Text (pad)

variable (gap : Padding)

namespace Text

theorem afterWord?_pad : ∀ {word : Text}, (∀ w ∈ word, isBlank (foldCase w) = false) → ∀ t : Text,
    afterWord? word (pad gap t) = (afterWord? word t).map (pad gap)
  | [], _, _ => rfl
  | _ :: _, _, [] => rfl
  | w :: word, hword, c :: t => by
    by_cases hc : c = '\n'
    · obtain ⟨x, rest, hx, hpad⟩ := exists_pad_newline gap t
      rw [hc, hpad, afterWord?_cons_blank hx hword, afterWord?_cons_blank (by decide) hword, Option.map_none]
    · rw [pad_cons gap hc, afterWord?, afterWord?]
      split
      · exact afterWord?_pad (fun x hx => hword x (List.mem_cons_of_mem _ hx)) t
      · rfl

end Text

namespace Marker

theorem afterWord?_pad (t : Text) : afterWord? (pad gap t) = (afterWord? t).map (pad gap) := by
  unfold afterWord?
  rw [Text.afterWord?_pad gap isBlank_foldCase_word]
  cases Text.afterWord? word t with
  | none => rfl
  | some rest =>
    cases rest with
    | nil => rfl
    | cons c rest =>
      by_cases hc : c = '\n'
      · obtain ⟨x, rest', hx, hpad⟩ := Text.exists_pad_newline gap rest
        have hcolon : x ≠ ':' := ne_of_isBlank hx (by decide)
        rw [hc, Option.map_some, hpad]
        simp [hcolon, hpad]
      · by_cases hcolon : c = ':'
        · simp [hcolon, Text.pad_cons]
        · simp [Text.pad_cons gap hc, hcolon]

theorem dropAt_pad (t : Text) : dropAt (pad gap t) = pad gap (dropAt t) := by
  cases t with
  | nil => rfl
  | cons c t =>
    by_cases hat : c = '@'
    · rw [hat, Text.pad_cons gap (by decide)]
      rfl
    · have hkeep : dropAt (c :: t) = c :: t := dropAt_of_head (by simpa using hat)
      rw [hkeep]
      refine dropAt_of_head fun h => ?_
      by_cases hc : c = '\n'
      · obtain ⟨x, rest, hx, hpad⟩ := Text.exists_pad_newline gap t
        rw [hc, hpad] at h
        exact ne_of_isBlank hx (by decide) (Option.some.inj h)
      · rw [Text.pad_cons gap hc] at h
        exact hat (Option.some.inj h)

theorem leading?_pad (body : Text) : leading? (pad gap body) = (leading? body).map (pad gap) := by
  have hdrop := Text.dropWhile_pad gap (p := fun c => c == '*' || isBlank c) (fun c hc => by simp [hc]) body
  rw [leading?, leading?, hdrop, dropAt_pad, afterWord?_pad, Option.map_map, Option.map_map]
  exact congrArg (fun f => Option.map f _) (funext (Text.trimStart_pad gap))

theorem inBlockFrom?_cons_blank {c : Char} (hc : isBlank c = true) (margin : Margin) (t : Text) :
    inBlockFrom? margin (c :: t) = inBlockFrom? (margin.next c) t := by
  have hat : c ≠ '@' := ne_of_isBlank hc (by decide)
  rw [inBlockFrom?, afterWord?_cons_blank hc, if_neg hat, ite_self]

/-- White space that stays on its line leaves the margin as it is. -/
theorem inBlockFrom?_gap {blanks : Text} (hblanks : ∀ c ∈ blanks, isBlank c = true ∧ c ≠ '\n') (margin : Margin)
    (t : Text) : inBlockFrom? margin (blanks ++ t) = inBlockFrom? margin t := by
  induction blanks with
  | nil => rfl
  | cons c blanks ih =>
    obtain ⟨⟨hblank, hc⟩, hrest⟩ := List.forall_mem_cons.1 hblanks
    have hnext : margin.next c = margin := by rw [Margin.next, if_neg hc, if_pos hblank]
    rw [List.cons_append, inBlockFrom?_cons_blank hblank, hnext, ih hrest]

theorem inBlockFrom?_pad (margin : Margin) (t : Text) :
    inBlockFrom? margin (pad gap t) = (inBlockFrom? margin t).map (pad gap) := by
  induction t generalizing margin with
  | nil => rfl
  | cons c t ih =>
    by_cases hc : c = '\n'
    · -- either way the margin is clear behind the newline
      rw [hc, Text.pad_newline, inBlockFrom?_gap gap.before_gap,
        inBlockFrom?_cons_blank (by decide), inBlockFrom?_gap gap.after_gap, ih,
        inBlockFrom?_cons_blank (by decide)]
    · rw [Text.pad_cons gap hc, inBlockFrom?, inBlockFrom?, ← Text.pad_cons gap hc, afterWord?_pad, afterWord?_pad, ih]
      by_cases hm : margin = .taken <;> by_cases hat : c = '@' <;>
        cases afterWord? (c :: t) <;> cases afterWord? t <;>
        simp [hm, hat, Text.trimStart_pad]

theorem afterNewlineFrom?_pad (found : Option Text) (t : Text) :
    afterNewlineFrom? (found.map (gap.after ++ pad gap ·)) (pad gap t) =
      (afterNewlineFrom? found t).map (gap.after ++ pad gap ·) := by
  induction t generalizing found with
  | nil => rfl
  | cons c t ih =>
    by_cases hc : c = '\n'
    · rw [hc, Text.pad_newline, afterNewlineFrom?_gap gap.before_gap,
        afterNewlineFrom?_newline, afterNewlineFrom?_newline,
        afterNewlineFrom?_gap gap.after_gap]
      exact ih (some t)
    · rw [Text.pad_cons gap hc, afterNewlineFrom?, afterNewlineFrom?, if_neg hc, if_neg hc, ih]
      split <;> rfl

theorem inDocstring?_blank {blanks : Text} (hblanks : ∀ c ∈ blanks, isBlank c = true) (t : Text) :
    inDocstring? (blanks ++ t) = inDocstring? t := by
  refine inDocstring?_append t fun c hc h => ?_
  have hblank := hblanks c hc
  rw [← foldCase_of_isBlank hblank, h] at hblank
  cases hblank

theorem inDocstring?_pad (t : Text) : inDocstring? (pad gap t) = (inDocstring? t).map (gap.after ++ pad gap ·) := by
  induction t with
  | nil => rfl
  | cons c t ih =>
    by_cases hc : c = '\n'
    · have hone : inDocstring? ('\n' :: t) = inDocstring? t := inDocstring?_pass (by decide) t
      have hafter : ∀ x ∈ '\n' :: gap.after, isBlank x = true :=
        List.forall_mem_cons.2 ⟨by decide, fun x hx => (gap.after_gap x hx).1⟩
      rw [hc, Text.pad_newline, inDocstring?_blank fun x hx => (gap.before_gap x hx).1, ← List.cons_append,
        inDocstring?_blank hafter, ih, hone]
    · rw [Text.pad_cons gap hc, inDocstring?, inDocstring?, ← Text.pad_cons gap hc, afterWord?_pad, ih]
      cases afterWord? (c :: t) with
      | none => rfl
      | some rest =>
        have := afterNewlineFrom?_pad gap none rest
        rw [Option.map_none] at this
        rw [Option.map_some, Option.bind_some, Option.bind_some, this]
        cases afterNewlineFrom? none rest <;> rfl

end Marker

namespace Head

/-- What a comment of a padded text holds behind its marker, where the comment of the text holds `raw`. -/
def heldIn (gap : Padding) : Head → Text → Text
  | block => pad gap
  | docstring => fun raw => gap.after ++ pad gap raw

theorem leading?_pad : ∀ (head : Head) (body : Text), head.leading? (pad gap body) = (head.leading? body).map (head.heldIn gap)
  | block, body => Marker.leading?_pad gap body
  | docstring, _ => rfl

theorem inside?_pad : ∀ (head : Head) (body : Text), head.inside? (pad gap body) = (head.inside? body).map (head.heldIn gap)
  | block, body => Marker.inBlockFrom?_pad gap .taken body
  | docstring, body => Marker.inDocstring?_pad gap body

/-- **A padded body announces its diagram as the body does.** -/
theorem announced?_pad (head : Head) (body : Text) :
    head.announced? (pad gap body) = (head.announced? body).map (head.heldIn gap) := by
  rw [announced?, announced?, leading?_pad, inside?_pad]
  cases head.leading? body <;> rfl

end Head

/-! ## The comments -/

def Notice.pad (gap : Padding) (held : Text → Text) (n : Notice) : Notice :=
  ⟨Text.pad gap n.whole, held n.raw, Text.pad gap n.after⟩

theorem Delimiters.notice?_pad {d : Delimiters} (hopener : ∀ m ∈ d.opener, isBlank m = false)
    (hcloser : ∀ m ∈ d.closer, isBlank m = false) (head : Head) (t : Text) :
    d.notice? head (pad gap t) = (d.notice? head t).map (Notice.pad gap (head.heldIn gap)) := by
  have hkeep : ∀ {mark : Text}, (∀ m ∈ mark, isBlank m = false) → pad gap mark = mark := fun hmark =>
    Text.pad_eq_self gap (Text.not_mem_of_isBlank hmark (by decide))
  by_cases hopen : d.opener.isPrefixOf t = true
  · obtain ⟨inside, rfl⟩ := List.isPrefixOf_iff_prefix.1 hopen
    rw [Text.pad_append, hkeep hopener, notice?_opener, notice?_opener,
      Text.cut?_pad gap d.closer_ne_nil hcloser]
    cases Text.cut? d.closer inside with
    | none => rfl
    | some p =>
      rw [Option.map_some, Option.bind_some, Option.bind_some, Head.announced?_pad, Option.map_map, Option.map_map]
      refine congrArg (fun f => Option.map f _) (funext fun raw => ?_)
      simp only [Function.comp_apply, Notice.pad, Text.pad_append, hkeep hopener, hkeep hcloser]
  · rw [notice?, notice?, Text.isPrefixOf_pad gap hopener, if_neg hopen, if_neg hopen, Option.map_none]

namespace CommentStyle

variable {style : CommentStyle}

theorem isBlank_enclosure {d : Delimiters} {head : Head} (h : style.enclosure? = some (d, head)) :
    (∀ m ∈ d.opener, isBlank m = false) ∧ ∀ m ∈ d.closer, isBlank m = false := by
  have hmarks : (d.opener ++ d.closer).all (fun m => !isBlank m) = true := by
    cases style <;> cases h <;> decide
  exact List.forall_mem_append.1 (Text.isBlank_eq_false_of_all hmarks)

/-- No comment begins with white space. -/
theorem notice?_blank {c : Char} (hc : isBlank c = true) (t : Text) : style.notice? (c :: t) = none := by
  have hmark : ∀ {mark : Text}, mark ≠ [] → (∀ m ∈ mark, isBlank m = false) → ¬ mark <+: c :: t :=
    fun hne hmark => Text.not_prefix_cons hne (Text.not_mem_of_isBlank hmark hc) t
  cases henc : style.enclosure? with
  | some pair =>
    obtain ⟨d, head⟩ := pair
    rw [notice?_enclosed henc]
    exact Delimiters.notice?_eq_none (hmark d.opener_ne_nil (isBlank_enclosure henc).1) head
  | none =>
    obtain rfl := eq_docRun henc
    have hsign : ¬ DocRun.sign.isPrefixOf (c :: t) = true :=
      mt List.isPrefixOf_iff_prefix.1 (hmark (by decide) (Text.isBlank_eq_false_of_all (by decide)))
    show DocRun.notice? (c :: t) = none
    rw [DocRun.notice?, DocRun.afterMarkerLine?, if_neg hsign, Option.bind_none]

theorem sightings_append_blank {blanks : Text} (hblanks : ∀ c ∈ blanks, isBlank c = true) (before t : Text) :
    style.sightings before (blanks ++ t) = style.sightings (before ++ blanks) t := by
  induction blanks generalizing before with
  | nil => rw [List.nil_append, List.append_nil]
  | cons c blanks ih =>
    obtain ⟨hc, hrest⟩ := List.forall_mem_cons.1 hblanks
    rw [List.cons_append, sightings_pass (notice?_blank hc _), ih hrest, List.append_assoc, List.singleton_append]

/-- Past a character that begins no comment, with the padding if it is a newline. -/
theorem sightings_pass_pad {c : Char} {t : Text} (h : style.notice? (pad gap (c :: t)) = none) (before : Text) :
    style.sightings before (pad gap (c :: t)) = style.sightings (before ++ pad gap [c]) (pad gap t) := by
  by_cases hc : c = '\n'
  · have hline : ∀ x ∈ pad gap [c], isBlank x = true := by
      rw [hc, Text.pad_newline, Text.pad_nil, List.append_nil]
      intro x hx
      rcases List.mem_append.1 hx with hx | hx
      · exact (gap.before_gap x hx).1
      · rcases List.mem_cons.1 hx with rfl | hx
        · decide
        · exact (gap.after_gap x hx).1
    rw [← List.singleton_append, Text.pad_append, sightings_append_blank hline]
  · rw [Text.pad_cons gap hc] at h
    rw [Text.pad_cons gap hc, sightings_pass h, Text.pad_cons gap hc, Text.pad_nil]

end CommentStyle

end Marginalia
