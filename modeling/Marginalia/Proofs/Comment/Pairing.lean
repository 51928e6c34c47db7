import Mathlib.Data.List.Forall2
import Marginalia.Proofs.Comment.Announcement
import Marginalia.Proofs.Comment.Style
/-!
# Which stretches between quotes are read as docstrings

The opener and the closer of a docstring are the same, so a text is cut by its quotes into stretches, and nothing but
their order says which are docstrings and which are code.  The scan takes a stretch that announces a diagram and passes
over the next one; after a stretch that announces none, it tries the very next one (`readings`).  That is all it does
on stretches without quotes (`takes_scanPlainly`), also where stretches are empty and the quotes run together: an opener
that begins in such a run reads some quotes in front of the same stretch, or nothing at all.
-/
namespace Marginalia

namespace Docstring

def quotes : Text := List.replicate 3 '"'

/-- The text of stretches with opening quotes in front of each. -/
def quoted : List Text → Text
  | [] => []
  | s :: rest => quotes ++ (s ++ quoted rest)

/-- A stretch of a text that quotes open, with all the text before these quotes. -/
structure Stretch where
  before : Text
  body : Text
deriving DecidableEq, Repr

/-- Whether a stretch holds a marker. -/
def announces (s : Text) : Bool := (Marker.inDocstring? s).isSome

/-- The stretches that are read as docstrings, from left to right. -/
def readings (before : Text) : List Text → List Stretch
  | s :: next :: rest =>
    if announces s then ⟨before, s⟩ :: readings (before ++ (quotes ++ (s ++ (quotes ++ next)))) rest
    else readings (before ++ (quotes ++ s)) (next :: rest)
  | _ => []

/-- The candidate is made from the stretch: it ends with the quotes behind it, and nothing but quotes stands between its
start and the stretch. -/
structure Takes (c : Candidate) (st : Stretch) : Prop where
  start : ∃ p n, st.before = p ++ List.replicate n '"' ∧ c.start = p.byteLength
  stop : c.stop = Text.byteLength (st.before ++ (quotes ++ (st.body ++ quotes)))
  raw : Marker.inDocstring? st.body = some c.raw

/-! ## Runs of quotes -/

theorem replicate_add_three (n : Nat) (t : Text) :
    List.replicate (n + 3) '"' ++ t = quotes ++ (List.replicate n '"' ++ t) := by
  rw [quotes, ← List.append_assoc, List.replicate_append_replicate, Nat.add_comm]

theorem quotes_append_replicate (n : Nat) (t : Text) :
    quotes ++ (List.replicate n '"' ++ t) = List.replicate n '"' ++ (quotes ++ t) := by
  rw [quotes, ← List.append_assoc, ← List.append_assoc, List.replicate_append_replicate,
    List.replicate_append_replicate, Nat.add_comm]

theorem inDocstring?_replicate (n : Nat) (s : Text) :
    Marker.inDocstring? (List.replicate n '"' ++ s) = Marker.inDocstring? s := by
  refine Marker.inDocstring?_append s fun c hc => ?_
  rw [List.eq_of_mem_replicate hc]
  decide

/-- The quotes behind a stretch are the first ones, also behind up to two quotes more. -/
theorem isFirst_quotes {n : Nat} (hn : n ≤ 2) {s : Text} (hs : '"' ∉ s) (hne : s ≠ []) (t : Text) :
    Text.IsFirst quotes ((List.replicate n '"' ++ s) ++ (quotes ++ t)) (List.replicate n '"' ++ s) t := by
  refine Text.isFirst_of_absent (fun hin => ?_) fun c hc hmem => ?_
  · obtain ⟨c, s, rfl⟩ := List.exists_cons_of_ne_nil hne
    have hc : c ∉ quotes := fun hmem => hs (List.eq_of_mem_replicate hmem ▸ List.mem_cons_self)
    rcases Text.infix_append_cons hc hin with hrun | hrest
    · have := hrun.length_le
      simp only [quotes, List.length_replicate] at this
      omega
    · exact hs (List.mem_cons_of_mem _ (hrest.subset (by decide)))
  · rw [List.getLast?_append_of_ne_nil _ hne] at hc
    rw [List.eq_of_mem_replicate hmem] at hc
    exact hs (List.mem_of_getLast? hc)

variable {p : Text}

theorem byteLength_concat_quote (p : Text) : (p ++ ['"']).byteLength = p.byteLength + 1 := by
  rw [Text.byteLength_append]
  rfl

theorem scanPlainly_rejected_quote {inside body after : Text} (hbody : Text.IsFirst quotes inside body after)
    (hnone : Head.docstring.announced? body = none) :
    scanPlainly CommentStyle.doubleQuotes .docstring p.byteLength (quotes ++ inside) =
      scanPlainly CommentStyle.doubleQuotes .docstring (p ++ ['"']).byteLength ((quotes ++ inside).drop 1) := by
  rw [byteLength_concat_quote]
  exact scanPlainly_rejected (d := CommentStyle.doubleQuotes) hbody hnone p.byteLength

/-- Where six quotes stand, the first three enclose nothing with the last three. -/
theorem scanPlainly_run (m : Nat) (t : Text) :
    scanPlainly CommentStyle.doubleQuotes .docstring p.byteLength (List.replicate (m + 6) '"' ++ t) =
      scanPlainly CommentStyle.doubleQuotes .docstring (p ++ ['"']).byteLength (List.replicate (m + 5) '"' ++ t) := by
  have hrun : List.replicate (m + 6) '"' ++ t = quotes ++ ([] ++ (quotes ++ (List.replicate m '"' ++ t))) := by
    rw [replicate_add_three, replicate_add_three, List.nil_append]
  have hbody : Text.IsFirst quotes ([] ++ (quotes ++ (List.replicate m '"' ++ t))) [] (List.replicate m '"' ++ t) :=
    ⟨rfl, fun _ _ _ => Nat.zero_le _⟩
  rw [hrun, scanPlainly_rejected_quote hbody rfl, ← hrun]
  rfl

theorem scanPlainly_replicate : ∀ (n : Nat) (p : Text),
    scanPlainly CommentStyle.doubleQuotes .docstring p.byteLength (List.replicate n '"') = []
  | 0, p => by rw [List.replicate_zero, scanPlainly]
  | n + 1, p => by
    by_cases hn : n < 5
    · refine scanPlainly_unclosed (fun hin => ?_) _
      have hlen : 3 ≤ ((List.replicate (n + 1) '"').drop 3).length := hin.length_le
      rw [List.length_drop, List.length_replicate] at hlen
      omega
    · obtain ⟨m, rfl⟩ : ∃ m, n = m + 5 := ⟨n - 5, by omega⟩
      have := scanPlainly_run (p := p) m []
      rw [List.append_nil, List.append_nil] at this
      rw [this, scanPlainly_replicate (m + 5)]

/-! ## From stretch to stretch -/

theorem scanPlainly_code {s : Text} (hs : '"' ∉ s) (t : Text) :
    scanPlainly CommentStyle.doubleQuotes .docstring p.byteLength (s ++ t) =
      scanPlainly CommentStyle.doubleQuotes .docstring (p ++ s).byteLength t := by
  rw [Text.byteLength_append]
  exact scanPlainly_passed fun p q hpq => Text.length_le_of_not_mem hs hpq

/-- A stretch that announces nothing is passed over, with the quotes in front of it. -/
theorem scanPlainly_unannounced {s : Text} (hs : '"' ∉ s) (hne : s ≠ []) (hnone : Marker.inDocstring? s = none)
    (t : Text) : ∀ (m : Nat), m ≤ 5 → ∀ p : Text,
    scanPlainly CommentStyle.doubleQuotes .docstring p.byteLength (List.replicate m '"' ++ (s ++ (quotes ++ t))) =
      scanPlainly CommentStyle.doubleQuotes .docstring (p ++ (List.replicate m '"' ++ s)).byteLength (quotes ++ t)
  | m, hm, p => by
    by_cases hsmall : m ≤ 2
    · have := isFirst_quotes hsmall hs hne t
      rw [List.append_assoc] at this
      rw [scanPlainly_of_isFirst this, ← Text.byteLength_append]
      rfl
    · obtain ⟨k, rfl⟩ : ∃ k, m = k + 3 := ⟨m - 3, by omega⟩
      have hrun : List.replicate (k + 3) '"' ++ (s ++ (quotes ++ t)) =
          quotes ++ ((List.replicate k '"' ++ s) ++ (quotes ++ t)) := by
        rw [replicate_add_three, List.append_assoc]
      have hnone' : Head.docstring.announced? (List.replicate k '"' ++ s) = none :=
        (inDocstring?_replicate k s).trans hnone
      rw [hrun, scanPlainly_rejected_quote (isFirst_quotes (by omega) hs hne t) hnone', ← hrun]
      have ih := scanPlainly_unannounced hs hne hnone t (k + 2) (by omega) (p ++ ['"'])
      rw [List.append_assoc p] at ih
      exact ih

/-- A stretch that announces a diagram is taken, and the scan goes on behind its closing quotes. -/
theorem scanPlainly_announced {s : Text} (hs : '"' ∉ s) (hne : s ≠ []) {raw : Text}
    (hraw : Marker.inDocstring? s = some raw) {n : Nat} (hn : n ≤ 2) (t : Text) :
    ∃ c, Takes c ⟨p ++ List.replicate n '"', s⟩ ∧
      scanPlainly CommentStyle.doubleQuotes .docstring p.byteLength
          (List.replicate n '"' ++ (quotes ++ (s ++ (quotes ++ t)))) =
        c :: scanPlainly CommentStyle.doubleQuotes .docstring
          (p ++ List.replicate n '"' ++ (quotes ++ (s ++ quotes))).byteLength t := by
  have hraw' : Head.docstring.announced? (List.replicate n '"' ++ s) = some raw :=
    (inDocstring?_replicate n s).trans hraw
  have htext : List.replicate n '"' ++ (quotes ++ (s ++ (quotes ++ t))) =
      quotes ++ ((List.replicate n '"' ++ s) ++ (quotes ++ t)) := by
    rw [List.append_assoc, quotes_append_replicate]
  have hstop : p.byteLength + CommentStyle.doubleQuotes.span (List.replicate n '"' ++ s) =
      (p ++ List.replicate n '"' ++ (quotes ++ (s ++ quotes))).byteLength := by
    rw [CommentStyle.doubleQuotes.span_eq, ← Text.byteLength_append, List.append_assoc p, ← quotes_append_replicate,
      ← List.append_assoc _ s]
    rfl
  have htaken := scanPlainly_taken (d := CommentStyle.doubleQuotes) (isFirst_quotes hn hs hne t) hraw' p.byteLength
  rw [hstop] at htaken
  refine ⟨⟨p.byteLength, _, raw⟩, ⟨⟨p, n, rfl, rfl⟩, rfl, hraw⟩, ?_⟩
  rw [htext]
  exact htaken

theorem scanPlainly_last {s : Text} (hs : '"' ∉ s) {n : Nat} (hn : n ≤ 2) :
    scanPlainly CommentStyle.doubleQuotes .docstring p.byteLength (List.replicate n '"' ++ (quotes ++ s)) = [] := by
  refine scanPlainly_unclosed (fun hin => ?_) _
  have hdrop : (List.replicate n '"' ++ (quotes ++ s)).drop 3 = List.replicate n '"' ++ s := by
    rw [← quotes_append_replicate]
    rfl
  change quotes <:+: (List.replicate n '"' ++ (quotes ++ s)).drop 3 at hin
  rw [hdrop] at hin
  by_cases hne : s = []
  · have := hin.length_le
    simp only [hne, quotes, List.append_nil, List.length_replicate] at this
    omega
  · have hfirst := isFirst_quotes hn hs hne []
    obtain ⟨a, b, hab⟩ := Text.infix_iff.1 hin
    have := hfirst.first a (b ++ (quotes ++ [])) (by rw [hab]; simp only [List.append_assoc])
    have := congrArg List.length hab
    simp only [quotes, List.length_append, List.length_replicate] at *
    omega

/-- **The scan takes the stretches that are read as docstrings**, behind any number of quotes that are left over. -/
theorem takes_scanPlainly : ∀ (segments : List Text) (n : Nat) (p : Text), (∀ s ∈ segments, '"' ∉ s) →
    List.Forall₂ Takes
      (scanPlainly CommentStyle.doubleQuotes .docstring p.byteLength (List.replicate n '"' ++ quoted segments))
      (readings (p ++ List.replicate n '"') segments)
  | [], n, p, _ => by
    rw [quoted, List.append_nil, scanPlainly_replicate]
    exact List.Forall₂.nil
  | [] :: segments, n, p, hq => by
    have ih := takes_scanPlainly segments (n + 3) p fun s hs => hq s (List.mem_cons_of_mem _ hs)
    have hreadings : readings (p ++ List.replicate n '"') ([] :: segments) =
        readings (p ++ List.replicate (n + 3) '"') segments := by
      rw [← List.replicate_append_replicate, ← List.append_assoc]
      cases segments <;> rfl
    rw [hreadings, quoted, List.nil_append, ← quotes_append_replicate, ← replicate_add_three]
    exact ih
  | (c :: s) :: segments, n, p, hq => by
    have hs := hq _ List.mem_cons_self
    by_cases hn : n ≤ 2
    · cases segments with
      | nil =>
        rw [quoted, quoted, List.append_nil, scanPlainly_last hs hn]
        exact List.Forall₂.nil
      | cons next rest =>
        have hnext := hq next (by simp)
        have hrest : ∀ t ∈ rest, '"' ∉ t := fun t ht => hq t (by simp [ht])
        rw [quoted, quoted, readings]
        cases hraw : Marker.inDocstring? (c :: s) with
        | some raw =>
          obtain ⟨candidate, htakes, hscan⟩ :=
            scanPlainly_announced (p := p) hs (List.cons_ne_nil c s) hraw hn (next ++ quoted rest)
          have ih := takes_scanPlainly rest 0
            (p ++ List.replicate n '"' ++ (quotes ++ (c :: s ++ quotes)) ++ next) hrest
          rw [if_pos (by rw [announces, hraw]; rfl), hscan, scanPlainly_code hnext]
          refine List.Forall₂.cons htakes ?_
          simp only [List.replicate_zero, List.nil_append, List.append_nil, List.append_assoc] at ih ⊢
          exact ih
        | none =>
          have ih := takes_scanPlainly (next :: rest) 0 (p ++ (List.replicate (n + 3) '"' ++ (c :: s))) fun t ht =>
            hq t (List.mem_cons_of_mem _ ht)
          have hskip := scanPlainly_unannounced hs (List.cons_ne_nil c s) hraw (next ++ quoted rest) (n + 3) (by omega) p
          have hbefore : p ++ (List.replicate (n + 3) '"' ++ (c :: s)) =
              p ++ List.replicate n '"' ++ (quotes ++ (c :: s)) := by
            rw [replicate_add_three, quotes_append_replicate, List.append_assoc]
          rw [hbefore, List.replicate_zero, List.nil_append, List.append_nil] at ih
          rw [if_neg (by rw [announces, hraw]; simp), ← quotes_append_replicate, ← replicate_add_three, hskip, hbefore]
          exact ih
    · obtain ⟨k, rfl⟩ : ∃ k, n = k + 3 := ⟨n - 3, by omega⟩
      have ih := takes_scanPlainly ((c :: s) :: segments) (k + 2) (p ++ ['"']) hq
      have hrun := scanPlainly_run (p := p) k ((c :: s) ++ quoted segments)
      have hshift : ∀ m, List.replicate m '"' ++ quoted ((c :: s) :: segments) =
          List.replicate (m + 3) '"' ++ ((c :: s) ++ quoted segments) := fun m => by
        rw [quoted, replicate_add_three, quotes_append_replicate]
      rw [hshift, hrun, ← hshift (k + 2)]
      rwa [List.append_assoc] at ih
termination_by segments n => (segments.length, n)

end Docstring

end Marginalia
