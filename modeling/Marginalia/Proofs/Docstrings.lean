import Mathlib.Data.List.Pairwise
import Mathlib.Data.List.Sort
import Marginalia.Proofs.Comment.Pairing
import Marginalia.Proofs.Document
/-!
# Docstrings among code

Docstrings stand in a text with code between them.  One expects the blocks of the text to be those of its docstrings,
each where it stands.  What the parser reports are the blocks of the stretches that are read as docstrings
(`findings_quoted`), and these are the docstrings as long as the reading stays in step: no docstring without a marker is
followed by code that a marker announces a diagram in (`readings_eq_iff`).
-/
namespace Marginalia

open Document (finding Finding code? maximumLength)

namespace Docstring

/-- A text of code and docstrings: the code in front, then each docstring with the code behind it. -/
def render (code : Text) : List (Text × Text) → Text
  | [] => code
  | (docstring, behind) :: rest => code ++ (quotes ++ (docstring ++ (quotes ++ render behind rest)))

/-- The stretches that the quotes cut the text into, behind the code in front. -/
def segments : List (Text × Text) → List Text
  | [] => []
  | (docstring, behind) :: rest => docstring :: behind :: segments rest

theorem render_eq : ∀ (code : Text) (pairs : List (Text × Text)), render code pairs = code ++ quoted (segments pairs)
  | code, [] => (List.append_nil code).symm
  | code, (docstring, behind) :: rest => by rw [render, render_eq behind rest, segments, quoted, quoted]

/-- The docstrings of a text, each with the text before it. -/
def docstrings (before : Text) : List (Text × Text) → List Stretch
  | [] => []
  | (docstring, behind) :: rest =>
    ⟨before, docstring⟩ :: docstrings (before ++ (quotes ++ (docstring ++ (quotes ++ behind)))) rest

/-- No docstring without a marker is followed by code with one, the code behind the last docstring apart. -/
def InStep : List (Text × Text) → Prop
  | (docstring, behind) :: next :: rest => (announces docstring ∨ ¬ announces behind) ∧ InStep (next :: rest)
  | _ => True

/-! ## Stretches -/

def Stretch.line (st : Stretch) : Nat := st.before.count '\n'

/-- The text up to the end of the quotes behind a stretch. -/
def Stretch.upTo (st : Stretch) : Text := st.before ++ (quotes ++ (st.body ++ quotes))

/-- The stretches that quotes follow. -/
def stretches (before : Text) : List Text → List Stretch
  | s :: next :: rest => ⟨before, s⟩ :: stretches (before ++ (quotes ++ s)) (next :: rest)
  | _ => []

theorem readings_sublist : ∀ (before : Text) (segments : List Text),
    (readings before segments).Sublist (stretches before segments)
  | _, [] => List.Sublist.slnil
  | _, [_] => List.Sublist.slnil
  | before, s :: next :: rest => by
    rw [readings, stretches]
    split
    · have ih := readings_sublist (before ++ (quotes ++ (s ++ (quotes ++ next)))) rest
      refine List.Sublist.cons_cons _ ?_
      cases rest with
      | nil => exact List.Sublist.slnil
      | cons r rest =>
        rw [stretches, List.append_assoc before, List.append_assoc quotes]
        exact ih.cons _
    · exact (readings_sublist _ (next :: rest)).cons _

theorem docstrings_sublist : ∀ (before : Text) (pairs : List (Text × Text)),
    (docstrings before pairs).Sublist (stretches before (segments pairs))
  | _, [] => List.Sublist.slnil
  | before, (docstring, behind) :: rest => by
    have ih := docstrings_sublist (before ++ (quotes ++ (docstring ++ (quotes ++ behind)))) rest
    rw [docstrings, segments, stretches]
    refine List.Sublist.cons_cons _ ?_
    cases rest with
    | nil => exact List.Sublist.slnil
    | cons r rest =>
      obtain ⟨s, t, hs⟩ : ∃ s t, segments (r :: rest) = s :: t := ⟨_, _, rfl⟩
      rw [hs] at ih ⊢
      rw [stretches, List.append_assoc before, List.append_assoc quotes]
      exact ih.cons _

theorem upTo_begins : ∀ {before : Text} {segments : List Text}, ∀ st ∈ stretches before segments,
    before <+: st.before ∧ st.upTo <+: before ++ quoted segments
  | _, [] => by simp [stretches]
  | _, [_] => by simp [stretches]
  | before, s :: next :: rest => by
    intro st hst
    rw [stretches] at hst
    rcases List.mem_cons.1 hst with rfl | hst
    · refine ⟨List.prefix_refl _, next ++ quoted rest, ?_⟩
      simp only [Stretch.upTo, quoted, List.append_assoc]
    · obtain ⟨hbefore, hupTo⟩ := upTo_begins st hst
      refine ⟨(List.prefix_append _ _).trans hbefore, ?_⟩
      rwa [List.append_assoc, List.append_assoc] at hupTo

/-- Behind a stretch that announces a diagram every stretch stands on a later line. -/
theorem pairwise_stretches : ∀ (before : Text) (segments : List Text),
    (stretches before segments).Pairwise fun a b => announces a.body → a.line < b.line
  | _, [] => List.Pairwise.nil
  | _, [_] => List.Pairwise.nil
  | before, s :: next :: rest => by
    rw [stretches]
    refine List.pairwise_cons.2 ⟨fun b hb hs => ?_, pairwise_stretches _ _⟩
    obtain ⟨raw, hraw⟩ := Option.isSome_iff_exists.1 hs
    have hnewline : 0 < s.count '\n' :=
      List.count_pos_iff.2 ((Marker.inDocstring?_suffix hraw).subset List.mem_cons_self)
    obtain ⟨t, ht⟩ := (upTo_begins b hb).1
    rw [Stretch.line, Stretch.line, ← ht]
    simp only [List.count_append]
    omega

theorem body_mem : ∀ {before : Text} {segments : List Text}, ∀ st ∈ stretches before segments, st.body ∈ segments
  | _, [] => by simp [stretches]
  | _, [_] => by simp [stretches]
  | before, s :: next :: rest => by
    intro st hst
    rw [stretches] at hst
    rcases List.mem_cons.1 hst with rfl | hst
    · exact List.mem_cons_self
    · exact List.mem_cons_of_mem _ (body_mem st hst)

/-! ## What the stretches say -/

def diagram? (s : Text) : Option DiagramCode := (Marker.inDocstring? s).bind (code? .doubleQuoted)

/-- What a stretch says as a docstring. -/
def Stretch.finding? (st : Stretch) : Option Finding :=
  (diagram? st.body).map fun code => ⟨code, st.line, st.upTo.count '\n', .python⟩

theorem diagram?_eq_none {s : Text} (h : announces s = false) : diagram? s = none := by
  rw [announces, Option.isSome_eq_false_iff, Option.isNone_iff_eq_none] at h
  rw [diagram?, h, Option.bind_none]

theorem finding?_eq_none {st : Stretch} (h : announces st.body = false) : st.finding? = none := by
  rw [Stretch.finding?, diagram?_eq_none h, Option.map_none]

theorem announces_of_finding? {st : Stretch} {f : Finding} (h : st.finding? = some f) :
    announces st.body = true ∧ f.first = st.line := by
  obtain ⟨code, hcode, rfl⟩ := Option.map_eq_some_iff.1 h
  obtain ⟨raw, hraw, -⟩ := Option.bind_eq_some_iff.1 hcode
  exact ⟨Option.isSome_iff_exists.2 ⟨raw, hraw⟩, rfl⟩

theorem finding?_below (st : Stretch) : st.finding? = (Stretch.finding? ⟨[], st.body⟩).map (Finding.below st.line) := by
  rw [Stretch.finding?, Stretch.finding?, Option.map_map]
  refine congrArg (fun f => (diagram? st.body).map f) (funext fun code => ?_)
  simp only [Function.comp_apply, Finding.below, Stretch.line, Stretch.upTo, List.count_append, List.count_nil,
    Nat.add_zero, Nat.zero_add]

theorem finding?_of_takes {t : Text} {c : Candidate} {st : Stretch} (htakes : Takes c st) (hbegins : st.upTo <+: t) :
    Document.finding? .python .doubleQuoted t c = st.finding? := by
  obtain ⟨⟨p, n, hbefore, hstart⟩, hstop, hraw⟩ := htakes
  obtain ⟨rest, rfl⟩ := hbegins
  have hlast : (st.upTo ++ rest).lineOf c.stop = st.upTo.count '\n' := by
    rw [hstop]
    exact Text.lineOf_byteLength st.upTo rest
  have hfirst : (st.upTo ++ rest).lineOf c.start = st.line := by
    have hrun : (List.replicate n '"').count '\n' = 0 :=
      List.count_eq_zero_of_not_mem fun h => absurd (List.eq_of_mem_replicate h) (by decide)
    rw [hstart, Stretch.upTo, Stretch.line, hbefore, List.append_assoc, List.append_assoc, Text.lineOf_byteLength,
      List.count_append, hrun, Nat.add_zero]
  rw [Document.finding?, hfirst, hlast, Stretch.finding?, diagram?, hraw, Option.bind_some]

theorem filterMap_of_forall₂ {α β γ : Type} {f : α → Option γ} {g : β → Option γ} {l : List α} {u : List β}
    (h : List.Forall₂ (fun a b => f a = g b) l u) : l.filterMap f = u.filterMap g := by
  induction h with
  | nil => rfl
  | cons hab _ ih => rw [List.filterMap_cons, List.filterMap_cons, hab, ih]

theorem takes_candidates {before : Text} {segments : List Text} (hq : ∀ s ∈ before :: segments, '"' ∉ s) :
    List.Forall₂ Takes (CommentStyle.doubleQuoted.candidates (before ++ quoted segments)) (readings before segments) := by
  have h := takes_scanPlainly segments 0 before fun s hs => hq s (List.mem_cons_of_mem _ hs)
  rw [List.replicate_zero, List.nil_append, List.append_nil] at h
  have hcode := scanPlainly_code (p := []) (hq before List.mem_cons_self) (quoted segments)
  rw [CommentStyle.candidates_eq rfl]
  rw [← List.nil_append before] at h
  rw [← hcode] at h
  exact h

theorem not_mem_quoted {c : Char} (hc : c ≠ '"') : ∀ {segments : List Text}, (∀ s ∈ segments, c ∉ s) → c ∉ quoted segments
  | [], _ => List.not_mem_nil
  | s :: segments, h => by
    have ih := not_mem_quoted hc fun t ht => h t (List.mem_cons_of_mem _ ht)
    have hs := h s List.mem_cons_self
    simp only [quoted, quotes, List.mem_append, List.mem_replicate, not_or]
    exact ⟨fun h => hc h.2, hs, ih⟩

/-- **The blocks of a text say what the stretches say that are read as docstrings.** -/
theorem findings_quoted {before : Text} {segments : List Text} (hq : ∀ s ∈ before :: segments, '"' ∉ s ∧ '\u0027' ∉ s)
    (hlen : (before ++ quoted segments).length ≤ maximumLength) :
    (Document.blocks Language.python.grammar.styles .python (before ++ quoted segments)).map finding =
      (readings before segments).filterMap Stretch.finding? := by
  have hsingle : CommentStyle.singleQuoted.candidates (before ++ quoted segments) = [] := by
    refine CommentStyle.candidates_eq_nil rfl fun hin => ?_
    have hmem : '\u0027' ∈ before ++ quoted segments := hin.subset (by decide)
    rcases List.mem_append.1 hmem with h | h
    · exact (hq before List.mem_cons_self).2 h
    · exact not_mem_quoted (by decide) (fun s hs => (hq s (List.mem_cons_of_mem _ hs)).2) h
  have hcomments : Document.comments Language.python.grammar.styles (before ++ quoted segments) =
      (CommentStyle.doubleQuoted.candidates (before ++ quoted segments)).map (.doubleQuoted, ·) := by
    simp [Document.comments, Language.grammar, Grammar.styles, hsingle]
  rw [Document.findings_blocks hlen, hcomments, List.filterMap_map]
  refine filterMap_of_forall₂ ?_
  have htakes := takes_candidates fun s hs => (hq s hs).1
  have hmem : ∀ st ∈ readings before segments, st.upTo <+: before ++ quoted segments := fun st hst =>
    (upTo_begins st ((readings_sublist before segments).subset hst)).2
  refine (List.forall₂_and_left _ _ |>.2 ⟨hmem, htakes.flip⟩).flip.imp fun c st h => ?_
  exact finding?_of_takes h.2 h.1

/-! ## Docstrings by themselves -/

/-- The blocks of a docstring that is a text by itself. -/
def blocksAlone (s : Text) : List Block := Document.blocks Language.python.grammar.styles .python (quotes ++ (s ++ quotes))

/-- What the blocks of a docstring say, in the place of the stretch. -/
def said (alone : Text → List Block) (st : Stretch) : List Finding :=
  (alone st.body).map fun block => (finding block).below st.line

theorem findings_alone {s : Text} (hq : '"' ∉ s ∧ '\u0027' ∉ s) (hlen : (quotes ++ (s ++ quotes)).length ≤ maximumLength) :
    (blocksAlone s).map finding = (Stretch.finding? ⟨[], s⟩).toList := by
  have htext : quotes ++ (s ++ quotes) = [] ++ quoted [s, []] := by simp [quoted]
  rw [blocksAlone, htext, findings_quoted (by simpa using hq) (by rwa [← htext]), readings]
  cases hs : announces s with
  | true => cases h : Stretch.finding? ⟨[], s⟩ <;> simp [readings, h]
  | false =>
    rw [finding?_eq_none hs]
    rfl

theorem said_alone {st : Stretch} (hq : '"' ∉ st.body ∧ '\u0027' ∉ st.body) (hlen : st.upTo.length ≤ maximumLength) :
    said blocksAlone st = st.finding?.toList := by
  have hbody : (quotes ++ (st.body ++ quotes)).length ≤ maximumLength := by
    rw [Stretch.upTo, List.length_append] at hlen
    omega
  have hmap : said blocksAlone st = ((blocksAlone st.body).map finding).map (Finding.below st.line) := by
    rw [said, List.map_map]
    rfl
  rw [hmap, findings_alone hq hbody, finding?_below st]
  cases Stretch.finding? ⟨[], st.body⟩ <;> rfl

theorem alone_ne_nil_iff {st : Stretch} (hq : '"' ∉ st.body ∧ '\u0027' ∉ st.body) (hlen : st.upTo.length ≤ maximumLength) :
    blocksAlone st.body ≠ [] ↔ st.finding? ≠ none := by
  have h := said_alone hq hlen
  rw [said] at h
  constructor
  · intro hne hnone
    rw [hnone] at h
    exact hne (List.map_eq_nil_iff.1 h)
  · intro hne hnil
    rw [hnil, List.map_nil] at h
    exact hne (Option.toList_eq_nil_iff.1 h.symm)

theorem flatMap_said {l : List Stretch} (hq : ∀ st ∈ l, '"' ∉ st.body ∧ '\u0027' ∉ st.body)
    (hlen : ∀ st ∈ l, st.upTo.length ≤ maximumLength) : l.flatMap (said blocksAlone) = l.filterMap Stretch.finding? := by
  rw [List.filterMap_eq_flatMap_toList]
  exact List.flatMap_congr fun st hst => said_alone (hq st hst) (hlen st hst)

/-! ## In step -/

theorem before_begins : ∀ {before : Text} {pairs : List (Text × Text)}, ∀ st ∈ docstrings before pairs,
    before <+: st.before := fun st hst => (upTo_begins st ((docstrings_sublist _ _).subset hst)).1

/-- **The stretches that are read are the docstrings with a marker, exactly if these are in step with the code.** -/
theorem readings_eq_iff : ∀ (before : Text) (pairs : List (Text × Text)),
    readings before (segments pairs) = (docstrings before pairs).filter (announces ·.body) ↔ InStep pairs
  | _, [] => by simp [segments, readings, docstrings, InStep]
  | before, [(docstring, behind)] => by
    cases h : announces docstring <;> simp [segments, readings, docstrings, InStep, h]
  | before, (docstring, behind) :: next :: rest => by
    have ih := readings_eq_iff (before ++ (quotes ++ (docstring ++ (quotes ++ behind)))) (next :: rest)
    obtain ⟨s, t, hs⟩ : ∃ s t, segments (next :: rest) = s :: t := ⟨_, _, rfl⟩
    rw [segments, readings, docstrings, InStep]
    cases hd : announces docstring with
    | true =>
      rw [if_pos rfl, List.filter_cons, if_pos hd, List.cons_inj_right, ih]
      simp
    | false =>
      rw [if_neg (by simp), List.filter_cons, if_neg (by simp [hd]), hs, readings, ← hs]
      cases hb : announces behind with
      | false =>
        rw [if_neg (by simp), List.append_assoc before, List.append_assoc quotes, ih]
        simp
      | true =>
        -- the code is read, and no docstring stands so early
        rw [if_pos rfl]
        refine ⟨fun heq => ?_, fun h => by simp at h⟩
        have hmem : (⟨before ++ (quotes ++ docstring), behind⟩ : Stretch) ∈
            docstrings (before ++ (quotes ++ (docstring ++ (quotes ++ behind)))) (next :: rest) :=
          List.mem_of_mem_filter (heq ▸ List.mem_cons_self)
        have := (before_begins _ hmem).length_le
        simp only [quotes, List.length_append, List.length_replicate] at this
        omega

section Findings

variable {all : List Stretch} (hall : all.Pairwise fun a b => announces a.body → a.line < b.line)
include hall

theorem pairwise_finding? :
    all.Pairwise fun a b => ∀ f, a.finding? = some f → ∀ g, b.finding? = some g → f.first < g.first :=
  hall.imp fun {a b} h f hf g hg => by
    obtain ⟨hannounces, hfirst⟩ := announces_of_finding? hf
    rw [hfirst, (announces_of_finding? hg).2]
    exact h hannounces

/-- Stretches that say something are told apart by what they say. -/
theorem eq_of_finding? {a b : Stretch} (ha : a ∈ all) (hb : b ∈ all) {f : Finding} (hf : a.finding? = some f)
    (hg : b.finding? = some f) : a = b := by
  have hne : all.Pairwise fun a b => ∀ f, a.finding? = some f → b.finding? ≠ some f :=
    (pairwise_finding? hall).imp fun h f hf hg => Nat.lt_irrefl _ (h f hf f hg)
  have : Std.Symm fun a b : Stretch => ∀ f, a.finding? = some f → b.finding? ≠ some f :=
    ⟨fun a b h f hf hg => h f hg hf⟩
  by_cases hab : a = b
  · exact hab
  · exact absurd hg (hne.forall ha hb hab f hf)

theorem pairwise_filterMap_finding? {l : List Stretch} (hl : l.Sublist all) :
    (l.filterMap Stretch.finding?).Pairwise fun f g => f.first < g.first :=
  List.pairwise_filterMap.2 ((pairwise_finding? hall).sublist hl)

theorem filterMap_finding?_subset_iff {l u : List Stretch} (hl : l.Sublist all) (hu : u.Sublist all) :
    (∀ f ∈ l.filterMap Stretch.finding?, f ∈ u.filterMap Stretch.finding?) ↔
      ∀ st ∈ l, st.finding? ≠ none → st ∈ u := by
  constructor
  · intro h st hst hsaid
    obtain ⟨f, hf⟩ := Option.ne_none_iff_exists'.1 hsaid
    obtain ⟨other, hother, hg⟩ := List.mem_filterMap.1 (h f (List.mem_filterMap.2 ⟨st, hst, hf⟩))
    exact eq_of_finding? hall (hl.subset hst) (hu.subset hother) hf hg ▸ hother
  · intro h f hf
    obtain ⟨st, hst, hsaid⟩ := List.mem_filterMap.1 hf
    exact List.mem_filterMap.2 ⟨st, h st hst (by rw [hsaid]; simp), hsaid⟩

/-- Two readings of the same stretches say the same exactly if they differ in stretches that say nothing only. -/
theorem filterMap_finding?_eq_iff {left right : List Stretch} (hleft : left.Sublist all) (hright : right.Sublist all) :
    left.filterMap Stretch.finding? = right.filterMap Stretch.finding? ↔
      (∀ st ∈ left, st.finding? ≠ none → st ∈ right) ∧ ∀ st ∈ right, st.finding? ≠ none → st ∈ left := by
  rw [← filterMap_finding?_subset_iff hall hleft hright, ← filterMap_finding?_subset_iff hall hright hleft]
  constructor
  · intro heq
    exact ⟨fun f hf => heq ▸ hf, fun f hf => heq ▸ hf⟩
  · rintro ⟨hin, hout⟩
    have hirrefl : Std.Irrefl fun f g : Finding => f.first < g.first := ⟨fun f => Nat.lt_irrefl _⟩
    have hasymm : Std.Antisymm fun f g : Finding => f.first < g.first :=
      ⟨fun f g h h' => absurd h (Nat.lt_asymm h')⟩
    have hsorted := pairwise_filterMap_finding? hall hleft
    exact hsorted.eq_of_mem_iff (pairwise_filterMap_finding? hall hright) fun f => ⟨hin f, hout f⟩

end Findings

/-- **Which docstrings a text is read by.**  The blocks of a text are those of the stretches that are read, each in its
place, and no others are taken from it.  The stretches that are read are the docstrings with a marker exactly if these
are in step with the code, and then the blocks are those of the docstrings.  In general the blocks are those of the
docstrings exactly if every stretch that is read for one and is none says nothing, and so does every docstring that is
missed. -/
theorem parse_docstrings {code : Text} {pairs : List (Text × Text)}
    (hq : ∀ s ∈ code :: segments pairs, '"' ∉ s ∧ '\u0027' ∉ s) (hlen : (render code pairs).length ≤ maximumLength) :
    ∃ (blocks : List Block) (alone : Text → List Block),
      Document.parse .python (String.ofList (render code pairs)) = .ok blocks ∧
      (∀ st ∈ docstrings code pairs ++ readings code (segments pairs),
        Document.parse .python (String.ofList (quotes ++ (st.body ++ quotes))) = .ok (alone st.body)) ∧
      (CommentStyle.doubleQuoted.candidates (render code pairs)).map Candidate.stop =
        (readings code (segments pairs)).map (·.upTo.byteLength) ∧
      blocks.map finding = (readings code (segments pairs)).flatMap (said alone) ∧
      (readings code (segments pairs) = (docstrings code pairs).filter (announces ·.body) ↔ InStep pairs) ∧
      (InStep pairs → blocks.map finding = (docstrings code pairs).flatMap (said alone)) ∧
      (blocks.map finding = (docstrings code pairs).flatMap (said alone) ↔
        (∀ st ∈ readings code (segments pairs), alone st.body ≠ [] → st ∈ docstrings code pairs) ∧
        ∀ st ∈ docstrings code pairs, alone st.body ≠ [] → st ∈ readings code (segments pairs)) := by
  have hreadings := readings_sublist code (segments pairs)
  have hdocstrings := docstrings_sublist code pairs
  rw [render_eq] at hlen ⊢
  have hbody : ∀ st ∈ stretches code (segments pairs), '"' ∉ st.body ∧ '\u0027' ∉ st.body := fun st hst =>
    hq _ (List.mem_cons_of_mem _ (body_mem st hst))
  have hupTo : ∀ st ∈ stretches code (segments pairs), st.upTo.length ≤ maximumLength := fun st hst =>
    Nat.le_trans (upTo_begins st hst).2.length_le hlen
  have hfindings := findings_quoted hq hlen
  have hsaid : ∀ {l : List Stretch}, l.Sublist (stretches code (segments pairs)) →
      l.flatMap (said blocksAlone) = l.filterMap Stretch.finding? := fun hl =>
    flatMap_said (fun st hst => hbody st (hl.subset hst)) fun st hst => hupTo st (hl.subset hst)
  have hne : ∀ st ∈ stretches code (segments pairs), blocksAlone st.body ≠ [] ↔ st.finding? ≠ none := fun st hst =>
    alone_ne_nil_iff (hbody st hst) (hupTo st hst)
  have hstep := readings_eq_iff code pairs
  refine ⟨_, blocksAlone, Document.parse_of_length_le _ hlen, fun st hst => ?_, ?_, ?_, hstep, fun h => ?_, ?_⟩
  · have hin : st ∈ stretches code (segments pairs) := by
      rcases List.mem_append.1 hst with h | h
      · exact hdocstrings.subset h
      · exact hreadings.subset h
    have hle := hupTo st hin
    refine Document.parse_of_length_le .python (Nat.le_trans ?_ hle)
    exact (List.suffix_append _ _).length_le
  · have htakes := takes_candidates fun s hs => (hq s hs).1
    have hstops := htakes.imp fun c st h => h.stop
    rw [← List.forall₂_eq_eq_eq]
    exact List.forall₂_map_left_iff.2 (List.forall₂_map_right_iff.2 hstops)
  · rw [hsaid hreadings]
    exact hfindings
  · rw [hfindings, hstep.2 h, hsaid hdocstrings, List.filterMap_filter]
    refine List.filterMap_congr fun st _ => ?_
    split
    · rfl
    · rename_i hnot
      exact (finding?_eq_none (Bool.eq_false_iff.2 hnot)).symm
  · rw [hfindings, hsaid hdocstrings,
      filterMap_finding?_eq_iff (pairwise_stretches code (segments pairs)) hreadings hdocstrings]
    refine and_congr (forall₂_congr fun st hst => ?_) (forall₂_congr fun st hst => ?_)
    · rw [hne st (hreadings.subset hst)]
    · rw [hne st (hdocstrings.subset hst)]

/-- Two docstrings, the first without a marker, and code between them that is cut off behind the word. -/
def misread : List (Text × Text) :=
  [("Helpers.".toList, "\nfrom charts import mermaid\nwidth = 3\n".toList), ("\nmermaid\ngraph TD\n".toList, "\n".toList)]

/-- The same docstrings the other way round. -/
def wellRead : List (Text × Text) :=
  [("\nmermaid\ngraph TD\n".toList, "\nfrom charts import mermaid\nwidth = 3\n".toList), ("Helpers.".toList, "\n".toList)]

theorem parse_docstrings_wellRead : InStep wellRead ∧ ∃ (blocks : List Block) (alone : Text → List Block),
    Document.parse .python (String.ofList (render "import re\n".toList wellRead)) = .ok blocks ∧
    blocks.map finding = (docstrings "import re\n".toList wellRead).flatMap (said alone) := by
  have hstep : InStep wellRead := ⟨Or.inl (by decide), trivial⟩
  obtain ⟨blocks, alone, hparse, -, -, -, -, hsaid, -⟩ :=
    @parse_docstrings "import re\n".toList wellRead (by decide) (by decide +kernel)
  exact ⟨hstep, blocks, alone, hparse, hsaid hstep⟩

/-- Code is read for a docstring, and the docstring behind it is missed. -/
theorem misread_docstring : ∃ (blocks : List Block) (alone : Text → List Block),
    Document.parse .python (String.ofList (render [] misread)) = .ok blocks ∧
    (∀ st ∈ docstrings [] misread,
      Document.parse .python (String.ofList (quotes ++ (st.body ++ quotes))) = .ok (alone st.body)) ∧
    blocks.map (fun b => (b.code.markup, b.range.first.value, b.range.last.value)) = [("width = 3".toList, 0, 3)] ∧
    (docstrings [] misread).flatMap (fun st => (alone st.body).map (·.code.markup)) = ["graph TD".toList] ∧
    blocks.map finding ≠ (docstrings [] misread).flatMap (said alone) := by
  have hfindings := @findings_quoted [] (segments misread) (by decide) (by decide +kernel)
  have hsaid := flatMap_said (l := docstrings [] misread) (by decide) (by decide +kernel)
  have hread : ((readings [] (segments misread)).filterMap Stretch.finding?).map
      (fun f => (f.code.markup, f.first, f.last)) = [("width = 3".toList, 0, 3)] := by decide +kernel
  have hmissed : ((docstrings [] misread).filterMap Stretch.finding?).map (·.code.markup) = ["graph TD".toList] := by
    decide +kernel
  rw [← hfindings, List.map_map] at hread
  refine ⟨_, blocksAlone, ?_, fun st hst => ?_, hread, ?_, fun heq => ?_⟩
  · rw [render_eq]
    exact Document.parse_of_length_le .python (by decide +kernel)
  · have hlen : ∀ st ∈ docstrings [] misread, (quotes ++ (st.body ++ quotes)).length ≤ maximumLength := by
      decide +kernel
    exact Document.parse_of_length_le .python (hlen st hst)
  · rw [← hsaid, List.map_flatMap] at hmissed
    simp only [said, List.map_map] at hmissed
    exact hmissed
  · rw [hsaid] at heq
    rw [← heq, List.map_map] at hmissed
    have := congrArg (List.map Prod.fst) hread
    rw [List.map_map] at this
    exact absurd (this.symm.trans hmissed) (by decide)

end Docstring

end Marginalia
