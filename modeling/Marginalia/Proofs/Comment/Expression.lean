import Marginalia.Proofs.Comment.FirstMarker
import Marginalia.Proofs.Text.Regex
/-!
# Markers as regular expressions

Each way to announce a diagram is a regular expression, and a body is searched for the leftmost match.  None of them
leaves a choice to be made: what may stand between the parts of a marker is never the beginning of the next part, so
there is one way to go on, and giving characters back leads nowhere.  So the readers of `Marginalia.Comment.Marker`,
which go through a body once, find what the searches find (`Head.matched?_eq`).
-/
namespace Marginalia

open Regex (first?_seq first?_either first?_char first?_optional first?_many first?_inAnyCase dropChar dropChar_cons)
open Text (trimStart)

namespace Marker

/-! ## The expressions -/

/-- The pattern `mermaid:?` -/
def mention : Regex := .seq (.inAnyCase word) (.optional (.char ':'))

/-- The pattern `\s*` -/
def gap : Regex := .many (.one isBlank)

/-- The pattern `\A[\s*]*@?mermaid:?\s*` -/
def leadingExpression : Regex :=
  .seq .start (.seq (.many (.one fun c => c == '*' || isBlank c)) (.seq (.optional (.char '@')) (.seq mention gap)))

/-- The pattern `(?:@mermaid:?|\n\s*\*?\s*mermaid:?)\s*` -/
def blockExpression : Regex :=
  .seq (.either (.seq (.char '@') mention)
    (.seq (.char '\n') (.seq gap (.seq (.optional (.char '*')) (.seq gap mention))))) gap

/-- The pattern `@?mermaid:?\s*\n` -/
def docstringExpression : Regex := .seq (.optional (.char '@')) (.seq mention (.seq gap (.char '\n')))

/-! ## What the parts leave -/

section Parts

variable {β : Type} {whole : Text} {k : Text → Option β}

theorem dropAt_eq (t : Text) : dropAt t = dropChar '@' t := by
  unfold dropAt dropChar
  split
  · rfl
  · rename_i hne
    cases t with
    | nil => rfl
    | cons c t => rw [if_neg]; simpa using fun h => hne t (by rw [h])

theorem afterWord?_eq_map (t : Text) : afterWord? t = (Text.afterWord? word t).map (dropChar ':') := by
  rw [afterWord?]
  cases Text.afterWord? word t with
  | none => rfl
  | some rest =>
    cases rest with
    | nil => rfl
    | cons c rest =>
      by_cases hc : c = ':'
      · subst hc
        rfl
      · simp [dropChar, hc]

theorem first?_mention (hk : ∀ rest, k rest = none → k (':' :: rest) = none) (t : Text) :
    mention.first? whole k t = (afterWord? t).bind k := by
  rw [mention, first?_seq, first?_inAnyCase, afterWord?_eq_map]
  cases Text.afterWord? word t with
  | none => rfl
  | some rest => exact first?_optional hk rest

theorem first?_gap (hk : ∀ c rest, isBlank c = true → k rest = none → k (c :: rest) = none) (t : Text) :
    gap.first? whole k t = k (trimStart t) :=
  first?_many hk t

theorem first?_gap_some (t : Text) : gap.first? whole some t = some (trimStart t) :=
  first?_gap (fun _ _ _ h => by cases h) t

end Parts

/-- What a mention at the start of a text leaves behind the white space that follows it. -/
def afterMention? (t : Text) : Option Text := (afterWord? t).map trimStart

theorem first?_mention_gap (whole t : Text) : mention.first? whole (gap.first? whole some) t = afterMention? t := by
  have hgap : gap.first? whole some = fun t => some (trimStart t) := funext first?_gap_some
  rw [hgap, first?_mention fun _ h => by cases h]
  cases h : afterWord? t <;> simp [afterMention?, h]

theorem afterMention?_cons_blank {c : Char} (hc : isBlank c = true) (t : Text) : afterMention? (c :: t) = none := by
  rw [afterMention?, afterWord?_cons_blank hc]
  rfl

theorem afterMention?_star (t : Text) : afterMention? ('*' :: t) = none := rfl

theorem afterMention?_at (t : Text) : afterMention? ('@' :: t) = none := rfl

/-! ## A marker that leads a block comment -/

/-- **The anchored search reads the leading marker.** -/
theorem search?_leadingExpression (body : Text) : leadingExpression.search? body = leading? body := by
  have hmention : mention.first? body (gap.first? body some) = afterMention? := funext (first?_mention_gap body)
  have hat : (Regex.seq (.optional (.char '@')) (.seq mention gap)).first? body some =
      fun t => afterMention? (dropAt t) := by
    funext t
    rw [first?_seq, funext (first?_seq mention gap), hmention, dropAt_eq]
    exact first?_optional (fun rest _ => afterMention?_at rest) t
  rw [leadingExpression, Regex.search?_start, Regex.head?_ends, first?_seq, hat]
  refine first?_many (fun c rest hc _ => ?_) body
  rw [Bool.or_eq_true, beq_iff_eq] at hc
  rcases hc with rfl | hc
  · rfl
  · rw [dropAt_of_head (by simpa using ne_of_isBlank hc (by decide : isBlank '@' = false)), afterMention?_cons_blank hc]

/-! ## A marker inside a block comment -/

/-- What a marker that follows a newline leaves. -/
def afterLineStart? (t : Text) : Option Text := afterMention? (trimStart (dropChar '*' (trimStart t)))

/-- What a match of `blockExpression` at the start of a text leaves of it. -/
def blockStart? : Text → Option Text
  | '@' :: t => afterMention? t
  | '\n' :: t => afterLineStart? t
  | _ => none

theorem trimStart_star (t : Text) : trimStart ('*' :: t) = '*' :: t := Text.trimStart_cons (by decide)

theorem afterMention?_trimStart_dropChar (t : Text) (h : afterMention? (trimStart (dropChar '*' t)) = none) :
    afterMention? (trimStart t) = none := by
  cases t with
  | nil => exact h
  | cons x t =>
    by_cases hx : x = '*'
    · rw [hx, trimStart_star, afterMention?_star]
    · rwa [dropChar_cons hx] at h

theorem first?_blockExpression (whole t : Text) : blockExpression.first? whole some t = blockStart? t := by
  have hmention : mention.first? whole (gap.first? whole some) = afterMention? := funext (first?_mention_gap whole)
  have hblank : gap.first? whole afterMention? = fun t => afterMention? (trimStart t) :=
    funext (first?_gap fun c rest hc _ => afterMention?_cons_blank hc rest)
  have hstar : (Regex.optional (.char '*')).first? whole (fun t => afterMention? (trimStart t)) =
      fun t => afterMention? (trimStart (dropChar '*' t)) :=
    funext (first?_optional fun rest _ => by rw [trimStart_star, afterMention?_star])
  have hline : gap.first? whole (fun t => afterMention? (trimStart (dropChar '*' t))) = afterLineStart? := by
    refine funext (first?_gap fun c rest hc hrest => ?_)
    rw [dropChar_cons (ne_of_isBlank hc (by decide)), Text.trimStart, List.dropWhile_cons_of_pos hc]
    exact afterMention?_trimStart_dropChar rest hrest
  rw [blockExpression, first?_seq, first?_either, first?_seq, first?_char, hmention, first?_seq, first?_char, first?_seq,
    funext (first?_seq (Regex.optional (.char '*')) _), funext (first?_seq gap mention), hmention, hblank, hstar, hline]
  cases t with
  | nil => rfl
  | cons c t =>
    by_cases hat : c = '@'
    · subst hat
      exact Option.or_none
    by_cases hnewline : c = '\n'
    · subst hnewline
      exact Option.none_or
    simp [blockStart?, hat, hnewline]

/-- What a marker leaves that stands behind the margin, be it in white space or behind one star. -/
def reach? : Margin → Text → Option Text
  | .taken, _ => none
  | .clear, t => afterLineStart? t
  | .starred, t => afterMention? (trimStart t)

theorem reach?_blank {c : Char} (hc : isBlank c = true) (margin : Margin) (t : Text) :
    reach? margin (c :: t) = reach? margin t := by
  have htrim : trimStart (c :: t) = trimStart t := List.dropWhile_cons_of_pos hc
  cases margin with
  | taken => rfl
  | clear => rw [reach?, reach?, afterLineStart?, htrim, ← afterLineStart?]
  | starred => rw [reach?, reach?, htrim]

theorem reach?_star (margin : Margin) (t : Text) : reach? margin ('*' :: t) = reach? (margin.next '*') t := by
  cases margin <;> rfl

theorem reach?_of_not_blank {c : Char} (hc : isBlank c = false) (hstar : c ≠ '*') (margin : Margin) (t : Text) :
    reach? margin (c :: t) = if margin = .taken then none else afterMention? (c :: t) := by
  have htrim : trimStart (c :: t) = c :: t := Text.trimStart_cons hc
  cases margin with
  | taken => rfl
  | clear => rw [reach?, afterLineStart?, htrim, dropChar_cons hstar, htrim, if_neg (by decide)]
  | starred => rw [reach?, htrim, if_neg (by decide)]

/-- Whatever the margin reaches, a new line reaches too. -/
theorem reach?_or_afterLineStart? (margin : Margin) (t : Text) :
    (reach? margin t).or (afterLineStart? t) = afterLineStart? t := by
  cases margin with
  | taken => rfl
  | clear => exact Option.or_self
  | starred =>
    cases h : afterMention? (trimStart t) with
    | none => rw [reach?, h, Option.none_or]
    | some raw =>
      have hline : afterLineStart? t = some raw := by
        rw [afterLineStart?]
        cases hu : trimStart t with
        | nil =>
          rw [hu] at h
          cases h
        | cons c u =>
          rw [hu] at h
          have hstar : c ≠ '*' := by
            rintro rfl
            cases h
          rw [dropChar_cons hstar, ← hu, Text.trimStart_trimStart, hu, h]
      rw [reach?, h, hline, Option.some_or]

theorem inBlockFrom?_cons (margin : Margin) (c : Char) (t : Text) : inBlockFrom? margin (c :: t) =
    (if margin = .taken then none else afterMention? (c :: t)).or
      ((if c = '@' then afterMention? t else none).or (inBlockFrom? (margin.next c) t)) := by
  have hmention : ∀ u, afterMention? u = (afterWord? u).map trimStart := fun u => rfl
  rw [inBlockFrom?, hmention, hmention]
  by_cases hm : margin = .taken
  · by_cases hc : c = '@'
    · simp only [if_pos hm, if_pos hc]
      cases afterWord? t <;> rfl
    · simp only [if_pos hm, if_neg hc, Option.none_or]
  · by_cases hc : c = '@'
    · simp only [if_neg hm, if_pos hc]
      cases afterWord? (c :: t) <;> cases afterWord? t <;> rfl
    · simp only [if_neg hm, if_neg hc, Option.none_or]
      cases afterWord? (c :: t) <;> rfl

/-- The search through a block comment is as far behind the pass as the margin reaches. -/
theorem inBlockFrom?_eq_search (whole : Text) : ∀ (margin : Margin) (t : Text),
    inBlockFrom? margin t = (reach? margin t).or (blockExpression.searchFrom? whole t)
  | margin, [] => by
    rw [Regex.searchFrom?_nil, first?_blockExpression]
    cases margin <;> rfl
  | margin, c :: t => by
    rw [inBlockFrom?_cons, inBlockFrom?_eq_search whole (margin.next c) t, Regex.searchFrom?_cons, first?_blockExpression]
    by_cases hnewline : c = '\n'
    · subst hnewline
      have hnone : (if margin = .taken then none else afterMention? ('\n' :: t)) = none := by
        rw [afterMention?_cons_blank (by decide), ite_self]
      have hreach := congrArg (·.or (blockExpression.searchFrom? whole t)) (reach?_or_afterLineStart? margin t)
      rw [hnone, reach?_blank (by decide), blockStart?]
      exact hreach.symm.trans Option.or_assoc
    by_cases hblank : isBlank c = true
    · have hat : c ≠ '@' := ne_of_isBlank hblank (by decide)
      have hnext : margin.next c = margin := by rw [Margin.next, if_neg hnewline, if_pos hblank]
      rw [afterMention?_cons_blank hblank, ite_self, if_neg hat, hnext, reach?_blank hblank]
      simp [blockStart?, hat, hnewline]
    by_cases hstar : c = '*'
    · subst hstar
      rw [afterMention?_star, ite_self, reach?_star]
      rfl
    have htaken : margin.next c = .taken := by simp [Margin.next, hnewline, hblank, hstar]
    rw [reach?_of_not_blank (by simpa using hblank) hstar, htaken]
    by_cases hat : c = '@'
    · subst hat
      rfl
    · simp [blockStart?, hat, hnewline, reach?]

/-- **The search for a marker inside a block comment finds what one pass finds.** -/
theorem search?_blockExpression (body : Text) : blockExpression.search? body = inBlock? body :=
  (inBlockFrom?_eq_search body .taken body).symm

/-! ## A marker in a docstring -/

theorem afterNewlineFrom?_eq_or : ∀ (found : Option Text) (t : Text),
    afterNewlineFrom? found t = (afterNewlineFrom? none t).or found
  | _, [] => rfl
  | found, c :: t => by
    rw [afterNewlineFrom?, afterNewlineFrom?]
    by_cases hblank : isBlank c = true
    · by_cases hnewline : c = '\n'
      · rw [if_pos hblank, if_pos hblank, if_pos hnewline, if_pos hnewline, afterNewlineFrom?_eq_or (some t) t,
          Option.or_assoc, Option.some_or]
      · rw [if_pos hblank, if_pos hblank, if_neg hnewline, if_neg hnewline, afterNewlineFrom?_eq_or found t]
    · rw [if_neg hblank, if_neg hblank, Option.none_or]

/-- Of the newlines in the white space, the last one is preferred. -/
theorem first?_gap_newline (whole : Text) : ∀ t : Text,
    gap.first? whole ((Regex.char '\n').first? whole some) t = afterNewlineFrom? none t
  | [] => by
    rw [gap, Regex.first?, Regex.ends, Regex.repeats]
    rfl
  | c :: t => by
    have ih := first?_gap_newline whole t
    rw [gap] at ih ⊢
    rw [Regex.first?_many_cons, ih, first?_char, afterNewlineFrom?]
    simp only [List.head?_cons, List.tail_cons, Option.some.injEq]
    by_cases hblank : isBlank c = true
    · rw [if_pos hblank, if_pos hblank, afterNewlineFrom?_eq_or (if c = '\n' then some t else none)]
    · have hnewline : c ≠ '\n' := by
        rintro rfl
        exact hblank (by decide)
      rw [if_neg hblank, if_neg hblank, if_neg hnewline, Option.or_none]

def docstringStart? (t : Text) : Option Text := (afterWord? t).bind (afterNewlineFrom? none)

theorem first?_docstringExpression (whole t : Text) :
    docstringExpression.first? whole some t = docstringStart? (dropAt t) := by
  have hmention : mention.first? whole (afterNewlineFrom? none) = docstringStart? := by
    refine funext (first?_mention fun rest _ => ?_)
    rw [afterNewlineFrom?, if_neg (by decide)]
  rw [docstringExpression, first?_seq, funext (first?_seq mention _), funext (first?_seq gap _),
    funext (first?_gap_newline whole), hmention, dropAt_eq]
  exact first?_optional (fun rest _ => rfl) t

theorem searchFrom?_docstringExpression (whole : Text) : ∀ t : Text,
    docstringExpression.searchFrom? whole t = inDocstring? t
  | [] => by
    rw [Regex.searchFrom?_nil, first?_docstringExpression]
    rfl
  | c :: t => by
    have hcons : ∀ (x : Char) (u : Text), inDocstring? (x :: u) = (docstringStart? (x :: u)).or (inDocstring? u) := by
      intro x u
      rw [inDocstring?, ← docstringStart?]
      cases docstringStart? (x :: u) <;> rfl
    rw [Regex.searchFrom?_cons, first?_docstringExpression, searchFrom?_docstringExpression whole t, hcons]
    by_cases hat : c = '@'
    · subst hat
      -- the word is found from the sign in front of it, and would be found one place later
      cases t with
      | nil => rfl
      | cons d u =>
        rw [hcons d u, ← Option.or_assoc]
        exact congrArg (·.or (inDocstring? u)) Option.or_self
    · rw [dropAt_of_head (by simpa using hat)]

/-- **The search for a marker in a docstring finds what one pass finds.** -/
theorem search?_docstringExpression (body : Text) : docstringExpression.search? body = inDocstring? body :=
  searchFrom?_docstringExpression body body

end Marker

namespace Head

/-- The expression for a marker at the start of a body. -/
def leadingExpression? : Head → Option Regex
  | block => some Marker.leadingExpression
  | docstring => none

/-- The expression for a marker anywhere in a body. -/
def markerExpression : Head → Regex
  | block => Marker.blockExpression
  | docstring => Marker.docstringExpression

/-- What the match in a body leaves behind it. -/
def matched? (head : Head) (body : Text) : Option Text :=
  (head.leadingExpression?.bind (·.search? body)).or (head.markerExpression.search? body)

/-- **What the expressions match is what is announced.** -/
theorem matched?_eq (head : Head) (body : Text) : head.matched? body = head.announced? body := by
  cases head with
  | block =>
    rw [matched?, leadingExpression?, Option.bind_some, Marker.search?_leadingExpression, announced?, leading?]
    cases Marker.leading? body with
    | some raw => rfl
    | none => exact Marker.search?_blockExpression body
  | docstring => exact Marker.search?_docstringExpression body

end Head

end Marginalia
