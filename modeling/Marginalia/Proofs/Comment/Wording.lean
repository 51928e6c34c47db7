import Marginalia.Proofs.Comment.Announcement
import Marginalia.Proofs.Comment.Expression
import Marginalia.Proofs.Text.Occurrence
/-!
# Where the word announces a diagram

The word `mermaid` may occur many times in a comment, in any letter case, and some of its occurrences announce a diagram:
in a block comment one that leads the comment, one that carries an `@` and one that leads a line; in a docstring one
that ends its line.  A body announces a diagram where there is such an occurrence, and holds the text behind the first of
them, a colon and white space apart (`Head.announced?_by_place`).
-/
namespace Marginalia

open Regex (dropChar exists_dropChar dropChar_append)
open Text (trimStart)

namespace Marker

/-- The word occurs between `before` and `after`. -/
def Occurs (body before after : Text) : Prop := ∃ w : Text, body = before ++ (w ++ after) ∧ w.map Char.toLower = word

/-- The stars and the white space that a body begins with. -/
def margin (body : Text) : Text := body.takeWhile fun c => c == '*' || isBlank c

/-- What stands before a word that leads a body, possibly with an `@`. -/
def LeadsBody (body before : Text) : Prop := ∃ sign : Text, before = margin body ++ sign ∧ (sign = [] ∨ sign = ['@'])

/-- An optional colon and white space with a newline in it begin the text. -/
def ClosesLine (after : Text) : Prop :=
  ∃ colon gap rest : Text, after = colon ++ (gap ++ rest) ∧ (colon = [] ∨ colon = [':']) ∧ (∀ c ∈ gap, isBlank c) ∧
    '\n' ∈ gap

/-- Whether an occurrence of the word announces a diagram. -/
def Announces : Head → (body before after : Text) → Prop
  | .block, body, before, _ => LeadsBody body before ∨ ['@'] <:+ before ∨ LeadsLine before
  | .docstring, _, _, after => ClosesLine after

/-- The first occurrence of the word that announces a diagram. -/
structure First (head : Head) (body before after : Text) : Prop where
  occurs : Occurs body before after
  announces : Announces head body before after
  first : ∀ p q, Occurs body p q → Announces head body p q → before.length ≤ p.length

/-- What a marker leaves of the text behind its word: in a block comment what follows one colon and all white space, in
a docstring what follows the last newline of that white space. -/
def Leaves : Head → (after raw : Text) → Prop
  | .block, after, raw => ∃ colon gap : Text, after = colon ++ (gap ++ raw) ∧
      (colon = [] ∧ after.head? ≠ some ':' ∨ colon = [':']) ∧ (∀ c ∈ gap, isBlank c) ∧
      raw.head?.any isBlank = false
  | .docstring, after, raw => ∃ colon a b rest : Text, after = colon ++ (a ++ '\n' :: (b ++ rest)) ∧
      (colon = [] ∨ colon = [':']) ∧ (∀ c ∈ a, isBlank c) ∧ (∀ c ∈ b, isBlank c ∧ c ≠ '\n') ∧
      rest.head?.any isBlank = false ∧ raw = b ++ rest

/-! ## Occurrences of the word -/

theorem map_toLower {w : Text} (h : w.map foldCase = word.map foldCase) : w.map Char.toLower = word := by
  have hword : word.map foldCase = word := by decide
  rw [hword] at h
  refine (List.map_congr_left fun c hc => ?_).trans h
  have hfold : foldCase c ∈ word := h ▸ List.mem_map_of_mem hc
  -- the two characters that fold to a letter from afar do not fold to one of the word
  unfold foldCase at hfold ⊢
  split at hfold
  · exact absurd hfold (by decide)
  · split at hfold
    · exact absurd hfold (by decide)
    · rename_i hs hk
      rw [if_neg hs, if_neg hk]

theorem afterWord?_append {w : Text} (hw : w.map Char.toLower = word) (after : Text) :
    afterWord? (w ++ after) = some (dropChar ':' after) := by
  rw [afterWord?_eq_map, Text.afterWord?_append after (map_foldCase hw), Option.map_some]

theorem afterWord?_eq_some_iff {t rest : Text} : afterWord? t = some rest ↔
    ∃ w after : Text, t = w ++ after ∧ w.map Char.toLower = word ∧ dropChar ':' after = rest := by
  constructor
  · intro h
    rw [afterWord?_eq_map, Option.map_eq_some_iff] at h
    obtain ⟨after, hafter, hrest⟩ := h
    obtain ⟨w, rfl, hw⟩ := Text.exists_afterWord? hafter
    exact ⟨w, after, rfl, map_toLower hw, hrest⟩
  · rintro ⟨w, after, rfl, hw, rfl⟩
    exact afterWord?_append hw after

theorem exists_letter {w : Text} (hw : w.map Char.toLower = word) : ∃ c u, w = c :: u ∧ c.toLower = 'm' := by
  cases w with
  | nil => cases hw
  | cons c u => exact ⟨c, u, rfl, (List.cons.inj hw).1⟩

/-- The word does not begin inside a text without its first letter. -/
theorem Occurs.length_le {body p q before rest : Text} (h : Occurs body p q) (hbody : body = before ++ rest)
    (hbefore : ∀ c ∈ before, c.toLower ≠ 'm') : before.length ≤ p.length := by
  obtain ⟨w, hw, hword⟩ := h
  obtain ⟨c, u, rfl, hc⟩ := exists_letter hword
  refine Nat.le_of_not_lt fun hlt => ?_
  have hp : p ++ [c] <+: body := ⟨u ++ q, by simp [hw]⟩
  have hinside : p ++ [c] <+: before := by
    refine List.prefix_of_prefix_length_le hp ⟨rest, hbody.symm⟩ ?_
    rw [List.length_append]
    exact hlt
  exact hbefore c (hinside.subset (by simp)) hc

/-! ## What a marker leaves -/

theorem afterNewlineFrom?_flush {t : Text} (ht : t.head?.any isBlank = false) (found : Option Text) :
    afterNewlineFrom? found t = found := by
  cases t with
  | nil => rfl
  | cons c t => rw [afterNewlineFrom?, if_neg (by simpa using ht)]

/-- The last newline of the white space counts. -/
theorem afterNewlineFrom?_append {b rest : Text} (hb : ∀ c ∈ b, isBlank c ∧ c ≠ '\n') (hrest : rest.head?.any isBlank = false) :
    ∀ {a : Text}, (∀ c ∈ a, isBlank c) → ∀ found, afterNewlineFrom? found (a ++ '\n' :: (b ++ rest)) = some (b ++ rest)
  | [], _, found => by
    rw [List.nil_append, afterNewlineFrom?_newline, afterNewlineFrom?_gap hb, afterNewlineFrom?_flush hrest]
  | c :: a, ha, found => by
    rw [List.cons_append, afterNewlineFrom?, if_pos (ha c List.mem_cons_self)]
    exact afterNewlineFrom?_append hb hrest (fun x hx => ha x (List.mem_cons_of_mem c hx)) _

theorem afterNewlineFrom?_eq_some_iff {t raw : Text} : afterNewlineFrom? none t = some raw ↔
    ∃ a b rest : Text, t = a ++ '\n' :: (b ++ rest) ∧ (∀ c ∈ a, isBlank c) ∧ (∀ c ∈ b, isBlank c ∧ c ≠ '\n') ∧
      rest.head?.any isBlank = false ∧ raw = b ++ rest := by
  constructor
  · intro h
    obtain ⟨gap, ht, hgap, hrest⟩ := Text.trimStart_eq_iff.1 (rfl : trimStart t = trimStart t)
    by_cases hnewline : '\n' ∈ gap
    · obtain ⟨a, b, rfl, hb⟩ := Text.exists_last hnewline
      have hblank : ∀ c ∈ b, isBlank c = true ∧ c ≠ '\n' := fun c hc =>
        ⟨hgap c (List.mem_append_right _ (List.mem_cons_of_mem _ hc)), ne_of_mem_of_not_mem hc hb⟩
      have ha : ∀ c ∈ a, isBlank c = true := fun c hc => hgap c (List.mem_append_left _ hc)
      rw [List.append_assoc, List.cons_append] at ht
      rw [ht, afterNewlineFrom?_append hblank hrest ha] at h
      exact ⟨a, b, _, ht, ha, hblank, hrest, (Option.some.inj h).symm⟩
    · have hblank : ∀ c ∈ gap, isBlank c = true ∧ c ≠ '\n' := fun c hc => ⟨hgap c hc, ne_of_mem_of_not_mem hc hnewline⟩
      rw [ht, afterNewlineFrom?_gap hblank, afterNewlineFrom?_flush hrest] at h
      cases h
  · rintro ⟨a, b, rest, rfl, ha, hb, hrest, rfl⟩
    exact afterNewlineFrom?_append hb hrest ha none

theorem head?_blank_append {a : Text} (ha : ∀ c ∈ a, isBlank c) (t : Text) : (a ++ '\n' :: t).head? ≠ some ':' := by
  cases a with
  | nil => simp
  | cons c a => simpa using ne_of_isBlank (ha c List.mem_cons_self) (by decide : isBlank ':' = false)

/-- What is left of the text behind the word. -/
def leaves? : Head → Text → Option Text
  | .block, after => some (trimStart (dropChar ':' after))
  | .docstring, after => afterNewlineFrom? none (dropChar ':' after)

theorem leaves?_block_iff {after raw : Text} : leaves? .block after = some raw ↔ Leaves .block after raw := by
  rw [leaves?, Option.some.injEq, Text.trimStart_eq_iff]
  constructor
  · rintro ⟨gap, hdrop, hgap, hraw⟩
    obtain ⟨colon, hafter, hcolon⟩ := exists_dropChar ':' after
    exact ⟨colon, gap, by rw [← hdrop, ← hafter], hcolon, hgap, hraw⟩
  · rintro ⟨colon, gap, rfl, hcolon, hgap, hraw⟩
    refine ⟨gap, dropChar_append (hcolon.imp_left fun h => ⟨h.1, ?_⟩), hgap, hraw⟩
    rw [← List.nil_append (gap ++ raw), ← h.1]
    exact h.2

theorem leaves?_docstring_iff {after raw : Text} : leaves? .docstring after = some raw ↔ Leaves .docstring after raw := by
  rw [leaves?, afterNewlineFrom?_eq_some_iff]
  constructor
  · rintro ⟨a, b, rest, hdrop, hrest⟩
    obtain ⟨colon, hafter, hcolon⟩ := exists_dropChar ':' after
    exact ⟨colon, a, b, rest, by rw [← hdrop, ← hafter], hcolon.imp_left And.left, hrest⟩
  · rintro ⟨colon, a, b, rest, rfl, hcolon, ha, hrest⟩
    exact ⟨a, b, rest, dropChar_append (hcolon.imp_left fun h => ⟨h, head?_blank_append ha _⟩), ha, hrest⟩

theorem leaves?_eq_some_iff {head : Head} {after raw : Text} : leaves? head after = some raw ↔ Leaves head after raw := by
  cases head with
  | block => exact leaves?_block_iff
  | docstring => exact leaves?_docstring_iff

theorem closesLine_iff {after : Text} : ClosesLine after ↔ ∃ raw, leaves? .docstring after = some raw := by
  constructor
  · rintro ⟨colon, gap, rest, rfl, hcolon, hgap, hnewline⟩
    obtain ⟨a, b, rfl, ha⟩ := List.eq_append_cons_of_mem hnewline
    rw [List.append_assoc, List.cons_append]
    have hblank : ∀ c ∈ a, isBlank c = true := fun c hc => hgap c (List.mem_append_left _ hc)
    have hgap' : ∀ c ∈ a, isBlank c = true ∧ c ≠ '\n' := fun c hc => ⟨hblank c hc, fun he => ha (he ▸ hc)⟩
    rw [leaves?, dropChar_append (hcolon.imp_left fun h => ⟨h, head?_blank_append hblank _⟩),
      afterNewlineFrom?_gap hgap', afterNewlineFrom?_newline, afterNewlineFrom?_eq_or]
    cases afterNewlineFrom? none (b ++ rest) with
    | none => exact ⟨_, rfl⟩
    | some raw => exact ⟨raw, rfl⟩
  · rintro ⟨raw, h⟩
    obtain ⟨colon, a, b, rest, rfl, hcolon, ha, hb, -, -⟩ := leaves?_docstring_iff.1 h
    refine ⟨colon, a ++ '\n' :: b, rest, by simp, hcolon, ?_, by simp⟩
    intro c hc
    rcases List.mem_append.1 hc with hc | hc
    · exact ha c hc
    · rcases List.mem_cons.1 hc with rfl | hc
      · decide
      · exact (hb c hc).1

/-! ## Markers at their places -/

theorem markerAt_block_iff {before t raw : Text} : MarkerAt .block before t raw ↔
    ∃ sign w after : Text, t = sign ++ (w ++ after) ∧ w.map Char.toLower = word ∧
      (sign = ['@'] ∨ sign = [] ∧ LeadsLine before) ∧ leaves? .block after = some raw := by
  constructor
  · intro h
    cases h with
    | tagged hword =>
      obtain ⟨w, after, rfl, hw, rfl⟩ := afterWord?_eq_some_iff.1 hword
      exact ⟨['@'], w, after, rfl, hw, Or.inl rfl, rfl⟩
    | leading hline hword =>
      obtain ⟨w, after, rfl, hw, rfl⟩ := afterWord?_eq_some_iff.1 hword
      exact ⟨[], w, after, rfl, hw, Or.inr ⟨rfl, hline⟩, rfl⟩
  · rintro ⟨sign, w, after, rfl, hw, hsign, hraw⟩
    obtain rfl := Option.some.inj hraw
    rcases hsign with rfl | ⟨rfl, hline⟩
    · exact .tagged (afterWord?_append hw after)
    · exact .leading hline (afterWord?_append hw after)

theorem markerAt_docstring_iff {before t raw : Text} : MarkerAt .docstring before t raw ↔
    ∃ w after : Text, t = w ++ after ∧ w.map Char.toLower = word ∧ leaves? .docstring after = some raw := by
  constructor
  · intro h
    cases h with
    | ending hword hraw =>
      obtain ⟨w, after, rfl, hw, rfl⟩ := afterWord?_eq_some_iff.1 hword
      exact ⟨w, after, rfl, hw, hraw⟩
  · rintro ⟨w, after, rfl, hw, hraw⟩
    exact .ending (afterWord?_append hw after) hraw

theorem leading?_eq_some_iff {body raw : Text} : leading? body = some raw ↔
    ∃ before after, Occurs body before after ∧ LeadsBody body before ∧ leaves? .block after = some raw := by
  have hbody : body = margin body ++ body.dropWhile fun c => c == '*' || isBlank c :=
    List.takeWhile_append_dropWhile.symm
  constructor
  · intro h
    rw [leading?, dropAt_eq, Option.map_eq_some_iff] at h
    obtain ⟨rest, hword, rfl⟩ := h
    obtain ⟨w, after, hw, hlower, rfl⟩ := afterWord?_eq_some_iff.1 hword
    obtain ⟨sign, hsplit, hsign⟩ := exists_dropChar '@' (body.dropWhile fun c => c == '*' || isBlank c)
    rw [hw] at hsplit
    refine ⟨margin body ++ sign, after, ⟨w, ?_, hlower⟩, ⟨sign, rfl, hsign.imp_left And.left⟩, rfl⟩
    rw [List.append_assoc, ← hsplit, ← hbody]
  · rintro ⟨before, after, ⟨w, hw, hlower⟩, ⟨sign, rfl, hsign⟩, hraw⟩
    obtain ⟨c, u, rfl, hc⟩ := exists_letter hlower
    have hdrop : dropChar '@' (sign ++ (c :: u ++ after)) = c :: u ++ after := by
      refine dropChar_append (hsign.imp_left fun h => ⟨h, ?_⟩)
      rw [List.cons_append, List.head?_cons]
      intro he
      rw [Option.some.inj he] at hc
      exact absurd hc (by decide)
    have hrest : body.dropWhile (fun c => c == '*' || isBlank c) = sign ++ (c :: u ++ after) := by
      rw [List.append_assoc] at hw
      exact List.append_cancel_left (hbody.symm.trans hw)
    rw [leading?, hrest, dropAt_eq, hdrop, afterWord?_append hlower]
    exact hraw

/-! ## The first place -/

theorem Occurs.length_le_of_leads {body p q before : Text} (h : Occurs body p q) {after : Text}
    (hoccurs : Occurs body before after) (hleads : LeadsBody body before) : before.length ≤ p.length := by
  obtain ⟨sign, rfl, hsign⟩ := hleads
  obtain ⟨w, hw, -⟩ := hoccurs
  refine h.length_le hw fun c hc => ?_
  rcases List.mem_append.1 hc with hc | hc
  · have hmargin := List.all_eq_true.1 (List.all_takeWhile (p := fun c => c == '*' || isBlank c) (l := body)) c hc
    rw [Bool.or_eq_true, beq_iff_eq] at hmargin
    rcases hmargin with rfl | hblank
    · decide
    · rw [toLower_of_isBlank hblank]
      exact ne_of_isBlank hblank (by decide)
  · rcases hsign with rfl | rfl
    · cases hc
    · rw [List.mem_singleton.1 hc]
      decide

/-- **An occurrence that leads the body is the first that announces a diagram.** -/
theorem first_of_leads {body before after : Text} (hoccurs : Occurs body before after) (hleads : LeadsBody body before) :
    First .block body before after :=
  ⟨hoccurs, Or.inl hleads, fun _ _ h _ => h.length_le_of_leads hoccurs hleads⟩

theorem first_of_inBlock? {body raw : Text} (hleading : leading? body = none) (h : inBlock? body = some raw) :
    ∃ before after, First .block body before after ∧ leaves? .block after = some raw := by
  obtain ⟨place, t, rfl, hat, hfirst⟩ := Head.inside?_eq_some_iff.1 (show Head.block.inside? body = some raw from h)
  obtain ⟨sign, w, after, rfl, hw, hsign, hraw⟩ := markerAt_block_iff.1 hat
  refine ⟨place ++ sign, after, ⟨⟨w, by simp, hw⟩, ?_, ?_⟩, hraw⟩
  · rcases hsign with rfl | ⟨rfl, hline⟩
    · exact Or.inr (Or.inl (List.suffix_append _ _))
    · exact Or.inr (Or.inr (by rwa [List.append_nil]))
  · intro p q ⟨v, hv, hlower⟩ hannounces
    rcases hannounces with hleads | ⟨p, rfl⟩ | hline
    · have hsome := leading?_eq_some_iff.2 ⟨p, q, ⟨v, hv, hlower⟩, hleads, rfl⟩
      rw [hleading] at hsome
      cases hsome
    · -- both places of the word stand one behind those of their signs
      have hle : place.length ≤ p.length := Nat.le_of_not_lt fun hlt =>
        hfirst p ('@' :: (v ++ q)) _ (by simpa using hv) hlt (.tagged (afterWord?_append hlower q))
      have hsign' : sign.length ≤ 1 := by rcases hsign with rfl | ⟨rfl, -⟩ <;> decide
      rw [List.length_append, List.length_append]
      exact Nat.add_le_add hle hsign'
    · have hle : place.length ≤ p.length :=
        Nat.le_of_not_lt fun hlt => hfirst p (v ++ q) _ hv hlt (.leading hline (afterWord?_append hlower q))
      rcases hsign with rfl | ⟨rfl, -⟩
      · rw [List.length_append]
        refine Nat.lt_of_le_of_ne hle fun heq => ?_
        obtain ⟨c, u, rfl, hc⟩ := exists_letter hlower
        have hhead := congrArg List.head? (List.append_inj hv heq).2
        rw [List.cons_append, List.head?_cons] at hhead
        rw [← Option.some.inj hhead] at hc
        exact absurd hc (by decide)
      · rwa [List.append_nil]

theorem first_of_announced? {head : Head} {body raw : Text} (h : head.announced? body = some raw) :
    ∃ before after, First head body before after ∧ leaves? head after = some raw := by
  rcases Head.announced?_eq_some_iff.1 h with hleading | ⟨hleading, hinside⟩
  · cases head with
    | docstring => cases hleading
    | block =>
      obtain ⟨before, after, hoccurs, hleads, hraw⟩ := leading?_eq_some_iff.1 hleading
      exact ⟨before, after, first_of_leads hoccurs hleads, hraw⟩
  · cases head with
    | block => exact first_of_inBlock? hleading hinside
    | docstring =>
      obtain ⟨before, t, rfl, hat, hfirst⟩ := Head.inside?_eq_some_iff.1 hinside
      obtain ⟨w, after, rfl, hw, hraw⟩ := markerAt_docstring_iff.1 hat
      refine ⟨before, after, ⟨⟨w, rfl, hw⟩, closesLine_iff.2 ⟨raw, hraw⟩, ?_⟩, hraw⟩
      intro p q ⟨v, hv, hlower⟩ hcloses
      obtain ⟨other, hother⟩ := closesLine_iff.1 hcloses
      exact Nat.le_of_not_lt fun hlt =>
        hfirst p (v ++ q) other hv hlt (markerAt_docstring_iff.2 ⟨v, q, rfl, hlower, hother⟩)

theorem announced?_ne_none {head : Head} {body before after : Text} (hoccurs : Occurs body before after)
    (hannounces : Announces head body before after) : head.announced? body ≠ none := by
  intro hnone
  obtain ⟨hleading, hinside⟩ := Head.announced?_eq_none_iff.1 hnone
  have hnowhere := Head.inside?_eq_none_iff.1 hinside
  obtain ⟨w, hw, hlower⟩ := hoccurs
  cases head with
  | block =>
    rcases hannounces with hleads | ⟨p, rfl⟩ | hline
    · have hsome := leading?_eq_some_iff.2 ⟨before, after, ⟨w, hw, hlower⟩, hleads, rfl⟩
      cases hleading.symm.trans hsome
    · exact hnowhere p ('@' :: (w ++ after)) _ (by simpa using hw) (.tagged (afterWord?_append hlower after))
    · exact hnowhere before (w ++ after) _ hw (.leading hline (afterWord?_append hlower after))
  | docstring =>
    obtain ⟨raw, hraw⟩ := closesLine_iff.1 hannounces
    exact hnowhere before (w ++ after) raw hw (markerAt_docstring_iff.2 ⟨w, after, rfl, hlower, hraw⟩)

theorem Occurs.after_eq {body before p after q : Text} (h : Occurs body before after) (h' : Occurs body p q)
    (hlen : before.length = p.length) : after = q := by
  obtain ⟨w, hw, hlower⟩ := h
  obtain ⟨v, hv, hlower'⟩ := h'
  have hwords : w.length = v.length := by
    have := congrArg List.length (hlower.trans hlower'.symm)
    rwa [List.length_map, List.length_map] at this
  exact (List.append_inj (List.append_inj (hw.symm.trans hv) hlen).2 hwords).2

end Marker

namespace Head

open Marker

/-- **A body announces a diagram where the word occurs at a place that announces one, and holds what the first such
place leaves: just as the expressions match.** -/
theorem announced?_by_place (body : Text) :
    (∀ head : Head, head.matched? body = head.announced? body ∧
      ((head.announced? body).isSome ↔ ∃ before after, Occurs body before after ∧ Announces head body before after) ∧
      ∀ raw, head.announced? body = some raw ↔ ∃ before after, First head body before after ∧ Leaves head after raw) ∧
    ∀ before after, Occurs body before after → LeadsBody body before → First .block body before after := by
  refine ⟨fun head => ⟨head.matched?_eq body, ⟨fun h => ?_, ?_⟩, fun raw => ⟨fun h => ?_, ?_⟩⟩, fun _ _ => first_of_leads⟩
  · obtain ⟨raw, hraw⟩ := Option.isSome_iff_exists.1 h
    obtain ⟨before, after, hfirst, -⟩ := first_of_announced? hraw
    exact ⟨before, after, hfirst.occurs, hfirst.announces⟩
  · rintro ⟨before, after, hoccurs, hannounces⟩
    exact Option.isSome_iff_ne_none.2 (announced?_ne_none hoccurs hannounces)
  · obtain ⟨before, after, hfirst, hraw⟩ := first_of_announced? h
    exact ⟨before, after, hfirst, leaves?_eq_some_iff.1 hraw⟩
  · rintro ⟨before, after, hfirst, hleaves⟩
    obtain ⟨other, hother⟩ := Option.ne_none_iff_exists'.1 (announced?_ne_none hfirst.occurs hfirst.announces)
    obtain ⟨p, q, hfirst', hraw⟩ := first_of_announced? hother
    have hlen : before.length = p.length :=
      Nat.le_antisymm (hfirst.first p q hfirst'.occurs hfirst'.announces)
        (hfirst'.first before after hfirst.occurs hfirst.announces)
    obtain rfl := hfirst.occurs.after_eq hfirst'.occurs hlen
    rw [hother, ← hraw, leaves?_eq_some_iff.2 hleaves]

/-- Neither the word in the text nor the one without an end of its line announces anything. -/
example : block.announced? "* see mermaid\n * Mermaid:  pie".toList = some "pie".toList ∧
    docstring.announced? "mermaid says\n@MERMAID:\n \n  pie".toList = some "  pie".toList := by
  decide

end Head

end Marginalia
