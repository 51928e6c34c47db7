import Marginalia.Comment.Style
import Marginalia.Proofs.Comment.Search
import Marginalia.Proofs.Text.Slice
/-!
# The search by byte offsets

The search for comments can go by offsets alone and cut the text anew in every round: from where it goes on, from where
a body begins, between the ends of a body, and in the body where its marker ends.  Each of these cuts could fail.  They do
not, if the opener is in ASCII: then one byte behind an opener is one character behind it (`Tracks.skip`), and all the
other offsets are the ends of texts that were found in the text.  The closer that is remembered from an earlier round is
used only where it stands behind the opener, and there it is the one of a fresh search (`Tracks.bodyEnd?_eq`).  So every
round does what a round of `Search` does (`Tracks.exists_round`), and the whole finds the same comments.  It ends whatever
is written in the text, as every round goes on behind the opener that it found (`pos_lt_of_next?`).
-/
namespace Marginalia

/-- The offset of the first occurrence of a mark. -/
def Text.find? (mark t : Text) : Option Nat := (cut? mark t).map fun parts => parts.1.byteLength

theorem Text.find?_of_isFirst {mark t before after : Text} (h : IsFirst mark t before after) :
    find? mark t = some before.byteLength := by
  rw [find?, cut?_eq_some_iff.2 h]
  rfl

/-- How far a search by offsets has come. -/
structure Cursor where
  /-- The offset at which it goes on. -/
  pos : Nat
  /-- The offset of the closer that was found last. -/
  closer : Option Nat
  /-- The offset of a closer before which no body holds a marker. -/
  unmarked : Option Nat
  /-- The candidates so far, in reverse. -/
  found : List Candidate
deriving DecidableEq, Repr

namespace Cursor

/-- What a round finds, by offsets. -/
inductive Round
  /-- No opener is left. -/
  | unopened
  /-- An opener, and no closer behind it. -/
  | unclosed (bodyStart : Nat)
  /-- A comment that announces nothing. -/
  | rejected (start bodyStart bodyEnd : Nat)
  /-- A comment that announces a diagram; the match of its marker ends `matchEnd` bytes behind the start of the body. -/
  | taken (start bodyStart bodyEnd matchEnd : Nat) (raw : Text)
deriving DecidableEq, Repr

/-- Where the body that begins at `bodyStart` ends, if a closer follows: at the closer found last, if that stands there.
None if the text cannot be cut to look for one. -/
def bodyEnd? (d : Delimiters) (t : Text) (c : Cursor) (bodyStart : Nat) : Option (Option Nat) :=
  match c.closer.filter (bodyStart ≤ ·) with
  | some offset => some (some offset)
  | none => (Text.slice? bodyStart t.byteLength t).map fun inside =>
      (Text.find? d.closer inside).map fun length => bodyStart + length

/-- Where the match of a marker ends in a body that ends at `bodyEnd`. -/
def matchEnd? (head : Head) (c : Cursor) (bodyEnd : Nat) (body : Text) : Option Nat :=
  match head.leading? body with
  | some raw => some (body.byteLength - raw.byteLength)
  | none =>
    if c.unmarked = some bodyEnd then none
    else (head.inside? body).map fun raw => body.byteLength - raw.byteLength

/-- One round of the search; none if a cut fails. -/
def round? (d : Delimiters) (head : Head) (t : Text) (c : Cursor) : Option Round := do
  let rest ← Text.slice? c.pos t.byteLength t
  match Text.find? d.opener rest with
  | none => return .unopened
  | some passed =>
    let start := c.pos + passed
    let bodyStart := start + d.opener.byteLength
    match ← c.bodyEnd? d t bodyStart with
    | none => return .unclosed bodyStart
    | some bodyEnd =>
      let body ← Text.slice? bodyStart bodyEnd t
      match c.matchEnd? head bodyEnd body with
      | none => return .rejected start bodyStart bodyEnd
      | some matchEnd => return .taken start bodyStart bodyEnd matchEnd (← Text.slice? matchEnd body.byteLength body)

/-- Where the search goes on behind a round, if it does: behind the closer of a comment that was taken, and one byte
behind the start of one that was not. -/
def next? (d : Delimiters) (c : Cursor) : Round → Option Cursor
  | .unopened | .unclosed _ => none
  | .rejected start _ bodyEnd => some ⟨start + 1, some bodyEnd, some bodyEnd, c.found⟩
  | .taken start _ bodyEnd _ raw =>
    let stop := bodyEnd + d.closer.byteLength
    some ⟨stop, some bodyEnd, c.unmarked, ⟨start, stop, raw⟩ :: c.found⟩

/-- The offsets at which a round cuts the text, the end of the text apart. -/
def cuts (c : Cursor) : Round → List Nat
  | .unopened => [c.pos]
  | .unclosed bodyStart => [c.pos, bodyStart]
  | .rejected _ bodyStart bodyEnd => [c.pos, bodyStart, bodyEnd]
  | .taken _ bodyStart bodyEnd matchEnd _ => [c.pos, bodyStart, bodyStart + matchEnd, bodyEnd]

variable {d : Delimiters} {head : Head} {t : Text} {c next : Cursor}

theorem byteLength_opener_pos (d : Delimiters) : 0 < d.opener.byteLength :=
  Nat.lt_of_lt_of_le d.length_opener_pos d.opener.length_le_byteLength

/-- **A round goes on further behind**, and starts nowhere but in the text. -/
theorem pos_lt_of_next? {round : Round} (hround : c.round? d head t = some round) (hnext : c.next? d round = some next) :
    c.pos < next.pos ∧ c.pos ≤ t.byteLength := by
  have hopener := byteLength_opener_pos d
  obtain ⟨rest, hrest, hround⟩ := Option.bind_eq_some_iff.1 hround
  have hpos := (Text.slice?_isSome_iff.1 (Option.isSome_of_eq_some hrest)).1
  split at hround
  · obtain rfl := Option.some.inj hround
    cases hnext
  obtain ⟨bodyEnd, -, hround⟩ := Option.bind_eq_some_iff.1 hround
  split at hround
  · obtain rfl := Option.some.inj hround
    cases hnext
  obtain ⟨body, hbody, hround⟩ := Option.bind_eq_some_iff.1 hround
  have hle := (Text.slice?_isSome_iff.1 (Option.isSome_of_eq_some hbody)).1
  split at hround
  · obtain rfl := Option.some.inj hround
    obtain rfl := Option.some.inj hnext
    exact ⟨by dsimp only; omega, hpos⟩
  · obtain ⟨raw, -, hround⟩ := Option.bind_eq_some_iff.1 hround
    obtain rfl := Option.some.inj hround
    obtain rfl := Option.some.inj hnext
    exact ⟨by dsimp only; omega, hpos⟩

/-- The candidates that the search ends with; none if a cut fails on the way. -/
def finish? (d : Delimiters) (head : Head) (t : Text) (c : Cursor) : Option (List Candidate) :=
  match hround : c.round? d head t with
  | none => none
  | some round =>
    match hnext : c.next? d round with
    | none => some c.found.reverse
    | some next =>
      have : t.byteLength + 1 - next.pos < t.byteLength + 1 - c.pos := by
        have := pos_lt_of_next? hround hnext
        omega
      finish? d head t next
termination_by t.byteLength + 1 - c.pos

theorem finish?_over {round : Round} (hround : c.round? d head t = some round) (hnext : c.next? d round = none) :
    c.finish? d head t = some c.found.reverse := by
  rw [finish?]
  split
  · rename_i hnone
    cases hround.symm.trans hnone
  · rename_i round' hround'
    obtain rfl := Option.some.inj (hround.symm.trans hround')
    split
    · rfl
    · rename_i next' hnext'
      cases hnext.symm.trans hnext'

theorem finish?_next {round : Round} (hround : c.round? d head t = some round) (hnext : c.next? d round = some next) :
    c.finish? d head t = next.finish? d head t := by
  rw [finish?]
  split
  · rename_i hnone
    cases hround.symm.trans hnone
  · rename_i round' hround'
    obtain rfl := Option.some.inj (hround.symm.trans hround')
    split
    · rename_i hnone
      cases hnext.symm.trans hnone
    · rename_i next' hnext'
      rw [Option.some.inj (hnext.symm.trans hnext')]

def start : Cursor := ⟨0, none, none, []⟩

/-- The cursors that the search comes through. -/
inductive Reached (d : Delimiters) (head : Head) (t : Text) : Cursor → Prop
  | start : Reached d head t start
  | next {c next : Cursor} {round : Round} :
      Reached d head t c → c.round? d head t = some round → c.next? d round = some next → Reached d head t next

/-! ## Cursors and searches -/

/-- The cursor and the search stand at the same place and remember the same. -/
structure Tracks (d : Delimiters) (head : Head) (t : Text) (c : Cursor) (s : Search) : Prop where
  valid : s.Valid d head
  place : ∃ before, t = before ++ s.rest ∧ before.byteLength = s.pos
  pos : c.pos = s.pos
  unmarked : c.unmarked = s.unmarked
  found : c.found = s.found
  /-- A closer that the search has forgotten stands before all bodies that are to come. -/
  closer : c.closer = s.closer.map Closer.offset ∨
    s.closer = none ∧ ∀ offset ∈ c.closer, offset < s.pos + d.opener.byteLength

theorem tracks_start (d : Delimiters) (head : Head) (t : Text) : Tracks d head t start ⟨0, t, none, none, []⟩ :=
  ⟨Search.valid_start d head t, ⟨[], rfl, rfl⟩, rfl, rfl, rfl, Or.inl rfl⟩

namespace Tracks

variable {s : Search} {passed inside body after : Text} (h : Tracks d head t c s)
include h

/-- A closer that stands behind an opener is remembered by the search too, with a body that reaches there. -/
theorem exists_closer (hrest : s.rest = passed ++ (d.opener ++ inside)) {offset : Nat} (hoffset : c.closer = some offset)
    (hbehind : s.pos + passed.byteLength + d.opener.byteLength ≤ offset) :
    ∃ closer, s.closer = some closer ∧ closer.offset = offset ∧ passed.length ≤ closer.body.length := by
  rcases h.closer with hsame | ⟨-, hbefore⟩
  · obtain ⟨closer, hcloser, rfl⟩ := Option.map_eq_some_iff.1 (hsame.symm.trans hoffset)
    refine ⟨closer, hcloser, rfl, ?_⟩
    obtain ⟨-, hat⟩ := h.valid.closer closer hcloser
    -- what stands before the closer begins with what was passed and the opener
    have hsplit : passed ++ d.opener ++ inside = s.rest.take (d.opener.length + closer.body.length) ++
        s.rest.drop (d.opener.length + closer.body.length) := by
      rw [List.take_append_drop, hrest, List.append_assoc]
    have hprefix : passed ++ d.opener <+: s.rest.take (d.opener.length + closer.body.length) := by
      refine Text.prefix_of_byteLength_le hsplit ?_
      rw [Text.byteLength_append]
      omega
    have hle := hprefix.length_le.trans (List.length_take_le _ _)
    rw [List.length_append] at hle
    omega
  · have := hbefore offset hoffset
    omega

/-- **The closer found last is the one that a fresh search finds.** -/
theorem bodyEnd?_eq (hrest : s.rest = passed ++ (d.opener ++ inside)) :
    c.bodyEnd? d t (s.pos + passed.byteLength + d.opener.byteLength) =
      some ((Text.cut? d.closer inside).map fun parts => (s.closerOf d passed parts.1).offset) := by
  obtain ⟨before, ht, hbefore⟩ := h.place
  have hfresh := Search.closer?_eq h.valid hrest
  unfold bodyEnd?
  cases hfilter : c.closer.filter (s.pos + passed.byteLength + d.opener.byteLength ≤ ·) with
  | some offset =>
    obtain ⟨hoffset, hbehind⟩ := Option.filter_eq_some_iff.1 hfilter
    obtain ⟨closer, hcloser, rfl, hlength⟩ := h.exists_closer hrest hoffset (by simpa using hbehind)
    have hadvance := Search.advance?_eq_some_iff.2 ⟨hlength, rfl⟩
    rw [Search.closer?, hcloser, Option.bind_some, hadvance] at hfresh
    have := congrArg (Option.map Closer.offset) hfresh
    rw [Option.map_map] at this
    exact congrArg some this
  | none =>
    have hslice : Text.slice? (s.pos + passed.byteLength + d.opener.byteLength) t.byteLength t = some inside := by
      refine Text.slice?_eq_some_iff.2 ⟨before ++ (passed ++ d.opener), [], ?_, ?_, ?_⟩
      · rw [ht, hrest]
        simp only [List.append_assoc, List.append_nil]
      · simp only [Text.byteLength_append]
        omega
      · rw [ht, hrest]
        simp only [List.append_assoc]
    simp only [hslice, Option.map_some, Text.find?, Option.map_map, Option.some.injEq]
    refine congrArg (Option.map · _) (funext fun parts => ?_)
    simp only [Function.comp_apply, Search.closerOf, Text.byteLength_append]
    omega

theorem matchEnd?_eq (hrest : s.rest = passed ++ (d.opener ++ inside)) (hbody : Text.IsFirst d.closer inside body after) :
    c.matchEnd? head (s.closerOf d passed body).offset body =
      (head.announced? body).map fun raw => body.byteLength - raw.byteLength := by
  have hsame : (s.closerOf d passed body).body = body := rfl
  rw [← Search.announced?_eq h.valid hrest hbody, matchEnd?, Search.announced?, h.unmarked, hsame]
  cases head.leading? body with
  | some raw => rfl
  | none =>
    dsimp only
    split <;> rfl

/-! ## Rounds -/

/-- Where the parts of a text begin that a round has come to. -/
theorem isBoundary {p q : Text} (hrest : s.rest = p ++ q) : t.IsBoundary (s.pos + p.byteLength) := by
  obtain ⟨before, ht, hbefore⟩ := h.place
  refine Text.isBoundary_iff.2 ⟨before ++ p, q, ?_, by rw [Text.byteLength_append, hbefore]⟩
  rw [ht, hrest, List.append_assoc]

theorem slice?_eq {p piece q : Text} (hrest : s.rest = p ++ (piece ++ q)) :
    Text.slice? (s.pos + p.byteLength) (s.pos + (p ++ piece).byteLength) t = some piece := by
  obtain ⟨before, ht, hbefore⟩ := h.place
  refine Text.slice?_eq_some_iff.2 ⟨before ++ p, q, ?_, ?_, ?_⟩
  · rw [ht, hrest, List.append_assoc]
  · rw [Text.byteLength_append, hbefore]
  · rw [List.append_assoc, Text.byteLength_append, hbefore]

theorem slice?_rest : Text.slice? s.pos t.byteLength t = some s.rest := by
  obtain ⟨before, ht, hbefore⟩ := h.place
  have hrest : s.rest = [] ++ (s.rest ++ []) := (List.append_nil s.rest).symm
  have := h.slice?_eq hrest
  rwa [List.nil_append, Text.byteLength_nil, Nat.add_zero, ← hbefore, ← Text.byteLength_append, ← ht, hbefore] at this

theorem round?_unopened (hopen : ¬ d.opener <:+: s.rest) : c.round? d head t = some .unopened := by
  rw [round?, h.pos, h.slice?_rest, Option.bind_eq_bind, Option.bind_some, Text.find?, Text.cut?_eq_none_iff.2 hopen]
  rfl

theorem round?_unclosed (hopen : Text.IsFirst d.opener s.rest passed inside) (hclose : ¬ d.closer <:+: inside) :
    c.round? d head t = some (.unclosed (s.pos + passed.byteLength + d.opener.byteLength)) := by
  rw [round?, h.pos, h.slice?_rest, Option.bind_eq_bind, Option.bind_some, Text.find?_of_isFirst hopen]
  dsimp only
  rw [h.bodyEnd?_eq hopen.eq, Text.cut?_eq_none_iff.2 hclose]
  rfl

/-- **A round reads the comment of the first opener.** -/
theorem round?_closed (hopen : Text.IsFirst d.opener s.rest passed inside)
    (hbody : Text.IsFirst d.closer inside body after) :
    c.round? d head t = some (match head.announced? body with
      | none => .rejected (s.pos + passed.byteLength) (s.pos + passed.byteLength + d.opener.byteLength)
          (s.closerOf d passed body).offset
      | some raw => .taken (s.pos + passed.byteLength) (s.pos + passed.byteLength + d.opener.byteLength)
          (s.closerOf d passed body).offset (body.byteLength - raw.byteLength) raw) := by
  have hpiece : Text.slice? (s.pos + passed.byteLength + d.opener.byteLength) (s.closerOf d passed body).offset t =
      some body := by
    have hrest : s.rest = (passed ++ d.opener) ++ (body ++ (d.closer ++ after)) := by
      rw [hopen.eq, hbody.eq, List.append_assoc]
    have := h.slice?_eq hrest
    rwa [Text.byteLength_append, ← Nat.add_assoc, List.append_assoc] at this
  rw [round?, h.pos, h.slice?_rest, Option.bind_eq_bind, Option.bind_some, Text.find?_of_isFirst hopen]
  dsimp only
  rw [h.bodyEnd?_eq hopen.eq, Text.cut?_eq_some_iff.2 hbody, Option.map_some, Option.bind_eq_bind, Option.bind_some]
  dsimp only
  rw [hpiece, Option.bind_some, h.matchEnd?_eq hopen.eq hbody]
  cases hraw : head.announced? body with
  | none => rfl
  | some raw =>
    obtain ⟨gap, rfl⟩ := Head.announced?_suffix hraw
    have hslice : Text.slice? (Text.byteLength (gap ++ raw) - raw.byteLength) (Text.byteLength (gap ++ raw)) (gap ++ raw) =
        some raw := by
      refine Text.slice?_eq_some_iff.2 ⟨gap, [], by rw [List.append_nil], ?_, rfl⟩
      rw [Text.byteLength_append, Nat.add_sub_cancel_right]
    rw [Option.map_some]
    dsimp only
    rw [hslice]
    rfl

/-- **Behind a comment that was taken the two go on together.** -/
theorem take (hopen : Text.IsFirst d.opener s.rest passed inside) (hbody : Text.IsFirst d.closer inside body after)
    (raw : Text) : Tracks d head t
      ⟨(s.closerOf d passed body).offset + d.closer.byteLength, some (s.closerOf d passed body).offset, c.unmarked,
        ⟨s.pos + passed.byteLength, (s.closerOf d passed body).offset + d.closer.byteLength, raw⟩ :: c.found⟩
      (s.take d passed inside (s.closerOf d passed body) raw) := by
  obtain ⟨before, ht, hbefore⟩ := h.place
  have hafter : inside.drop (body.length + d.closer.length) = after := by
    rw [hbody.eq, ← List.append_assoc]
    exact List.drop_left' List.length_append
  have hopener := byteLength_opener_pos d
  refine ⟨Search.valid_take h.valid hopen.eq hbody raw, ⟨before ++ (passed ++ (d.opener ++ (body ++ d.closer))), ?_, ?_⟩,
    rfl, h.unmarked, congrArg _ h.found, Or.inr ⟨rfl, fun offset hoffset => ?_⟩⟩
  · show t = _ ++ inside.drop (body.length + d.closer.length)
    rw [hafter, ht, hopen.eq, hbody.eq]
    simp only [List.append_assoc]
  · simp only [Search.take, Search.closerOf, Text.byteLength_append]
    omega
  · rw [← Option.some.inj (Option.mem_def.1 hoffset)]
    dsimp only [Search.take]
    omega

/-- **So they do behind the opener of a comment that was not**, if one byte there is one character. -/
theorem skip (hone : Text.byteLength (d.opener.take 1) = 1) (hopen : Text.IsFirst d.opener s.rest passed inside)
    (hbody : Text.IsFirst d.closer inside body after) (hnone : head.announced? body = none) : Tracks d head t
      ⟨s.pos + passed.byteLength + 1, some (s.closerOf d passed body).offset, some (s.closerOf d passed body).offset,
        c.found⟩
      (s.skip d passed (s.closerOf d passed body)) := by
  obtain ⟨before, ht, hbefore⟩ := h.place
  have hrest : s.rest = (passed ++ d.opener.take 1) ++ s.rest.drop (passed.length + 1) := by
    have htake : passed ++ d.opener.take 1 = s.rest.take (passed.length + 1) := by
      rw [hopen.eq, List.take_length_add_append, List.take_append_of_le_length d.length_opener_pos]
    rw [htake, List.take_append_drop]
  refine ⟨Search.valid_skip hopen.eq hbody hnone, ⟨before ++ (passed ++ d.opener.take 1), ?_, ?_⟩, ?_, rfl, h.found, ?_⟩
  · show t = _ ++ s.rest.drop (passed.length + 1)
    rw [ht, List.append_assoc, ← hrest]
  · simp only [Search.skip, Text.byteLength_append]
    omega
  · rw [Search.skip, hone]
  · show some (s.closerOf d passed body).offset = ((s.closerOf d passed body).advance? 1).map Closer.offset ∨ _
    cases hadvance : (s.closerOf d passed body).advance? 1 with
    | some closer =>
      obtain ⟨-, rfl⟩ := Search.advance?_eq_some_iff.1 hadvance
      exact Or.inl rfl
    | none =>
      -- the body is empty, so the closer stands right behind the opener
      have hnil : body = [] := by
        refine List.eq_nil_of_length_eq_zero (Nat.eq_zero_of_not_pos fun hpos => ?_)
        have hsome := Search.advance?_eq_some_iff (c := s.closerOf d passed body).2 ⟨hpos, rfl⟩
        cases hadvance.symm.trans hsome
      refine Or.inr ⟨hadvance, fun offset hoffset => ?_⟩
      rw [← Option.some.inj (Option.mem_def.1 hoffset)]
      simp only [Search.skip, Search.closerOf, hnil, hone, List.append_nil, Text.byteLength_append]
      omega

theorem isBoundary_bodyStart (hopen : Text.IsFirst d.opener s.rest passed inside) {p q : Text} (hinside : inside = p ++ q) :
    t.IsBoundary (s.pos + passed.byteLength + d.opener.byteLength + p.byteLength) := by
  rw [Nat.add_assoc, Nat.add_assoc, ← Text.byteLength_append, ← Text.byteLength_append]
  exact h.isBoundary (q := q) (by rw [hopen.eq, hinside]; simp only [List.append_assoc])

/-- **A round of the cursor is a round of the search**: it cuts at boundaries, in order. -/
theorem exists_round (hone : Text.byteLength (d.opener.take 1) = 1) : ∃ round, c.round? d head t = some round ∧
    ((c.cuts round).Pairwise (· ≤ ·) ∧ ∀ offset ∈ c.cuts round, t.IsBoundary offset) ∧
    (s.round? d head = none ∧ c.next? d round = none ∨
      ∃ s' c', s.round? d head = some s' ∧ c.next? d round = some c' ∧ Tracks d head t c' s') := by
  have hpos : t.IsBoundary c.pos := h.pos ▸ h.isBoundary (p := []) (q := s.rest) rfl
  rcases Search.round?_cases h.valid with ⟨hnone, hopen⟩ | ⟨passed, inside, hopen, hcases⟩
  · exact ⟨_, h.round?_unopened hopen, ⟨by simp [cuts], by simpa [cuts] using hpos⟩, Or.inl ⟨hnone, rfl⟩⟩
  have hstart := h.isBoundary_bodyStart hopen (p := []) rfl
  rw [Text.byteLength_nil, Nat.add_zero] at hstart
  have hle : c.pos ≤ s.pos + passed.byteLength + d.opener.byteLength := by rw [h.pos]; omega
  rcases hcases with ⟨hnone, hclose⟩ | ⟨body, after, hbody, hcases⟩
  · exact ⟨_, h.round?_unclosed hopen hclose, ⟨by simp [cuts, hle], by simp [cuts, hpos, hstart]⟩, Or.inl ⟨hnone, rfl⟩⟩
  have hend : (s.closerOf d passed body).offset = s.pos + passed.byteLength + d.opener.byteLength + body.byteLength := by
    simp only [Search.closerOf, Text.byteLength_append, Nat.add_assoc]
  have hstop := h.isBoundary_bodyStart hopen hbody.eq
  have hround := h.round?_closed hopen hbody
  rcases hcases with ⟨raw, hraw, hsearch⟩ | ⟨hnone, hsearch⟩
  · rw [hraw] at hround
    obtain ⟨gap, rfl⟩ := Head.announced?_suffix hraw
    have hmatch := h.isBoundary_bodyStart hopen (hbody.eq.trans (List.append_assoc _ _ _))
    have hgap : Text.byteLength (gap ++ raw) - raw.byteLength = Text.byteLength gap := by
      rw [Text.byteLength_append, Nat.add_sub_cancel_right]
    have hlong : Text.byteLength gap ≤ Text.byteLength (gap ++ raw) := by
      rw [Text.byteLength_append]
      exact Nat.le_add_right _ _
    refine ⟨_, hround, ⟨?_, ?_⟩, Or.inr ⟨_, _, hsearch, rfl, h.take hopen hbody raw⟩⟩
    · simp [cuts, hend, hgap, -Text.byteLength_append]
      omega
    · simp [cuts, hend, hgap, hpos, hstart, hmatch, hstop, -Text.byteLength_append]
  · rw [hnone] at hround
    refine ⟨_, hround, ⟨?_, ?_⟩, Or.inr ⟨_, _, hsearch, rfl, h.skip hone hopen hbody hnone⟩⟩
    · simp [cuts, hend]
      omega
    · simp [cuts, hpos, hstart, hend, hstop]

end Tracks

variable {s : Search}

/-- **A search by offsets ends with what the search finds**, and no cut fails on the way. -/
theorem finish?_eq (hone : Text.byteLength (d.opener.take 1) = 1) (h : Tracks d head t c s) :
    c.finish? d head t = some (s.finish d head) := by
  fun_induction Search.finish d head s generalizing c with
  | case1 s hnone =>
    obtain ⟨round, hround, -, ⟨-, hnext⟩ | ⟨s', c', hsome, -⟩⟩ := h.exists_round hone
    · rw [finish?_over hround hnext, h.found]
    · cases hnone.symm.trans hsome
  | case2 s s' hs' _ ih =>
    obtain ⟨round, hround, -, ⟨hnone, -⟩ | ⟨s₁, c', hsome, hnext, hc'⟩⟩ := h.exists_round hone
    · cases hs'.symm.trans hnone
    · obtain rfl := Option.some.inj (hs'.symm.trans hsome)
      rw [finish?_next hround hnext]
      exact ih hc'

theorem Reached.exists_tracks (hone : Text.byteLength (d.opener.take 1) = 1) (h : Reached d head t c) :
    ∃ s, Tracks d head t c s := by
  induction h with
  | start => exact ⟨_, tracks_start d head t⟩
  | next _ hround hnext ih =>
    obtain ⟨s, hs⟩ := ih
    obtain ⟨round, hround', -, ⟨-, hnone⟩ | ⟨s', c', -, hnext', hc'⟩⟩ := hs.exists_round hone
    · obtain rfl := Option.some.inj (hround.symm.trans hround')
      cases hnext.symm.trans hnone
    · obtain rfl := Option.some.inj (hround.symm.trans hround')
      obtain rfl := Option.some.inj (hnext.symm.trans hnext')
      exact ⟨s', hc'⟩

theorem byteLength_take_one {opener : Text} (hne : opener ≠ []) (hascii : ∀ x ∈ opener, x.toNat < 128) :
    Text.byteLength (opener.take 1) = 1 := by
  obtain ⟨x, rest, rfl⟩ := List.exists_cons_of_ne_nil hne
  have hsize : x.utf8Size = 1 := by
    rw [Char.utf8Size_eq_one_iff, UInt32.le_iff_toNat_le]
    exact Nat.le_of_lt_succ (hascii x List.mem_cons_self)
  rw [List.take_succ_cons, List.take_zero, Text.byteLength_cons, hsize, Text.byteLength_nil]

end Cursor

/-- **No cut of the search fails.**  With an opener in ASCII, and whatever the closer and the text are written in, the
search by offsets finds the comments that the search finds.  In every round that it comes to, the offsets at which it cuts
the text (where it goes on, where a body begins, where the match of its marker ends, where it ends) are in order and within
the text, and none lies inside a character; and it goes on further behind, but not behind the end of the text, so there
are no more rounds than bytes. -/
theorem scan_by_offsets {d : Delimiters} (hascii : ∀ x ∈ d.opener, x.toNat < 128) (head : Head) (t : Text) :
    Cursor.start.finish? d head t = some (scan d head t) ∧
    ∀ c, Cursor.Reached d head t c → ∃ round, c.round? d head t = some round ∧
      (c.cuts round).Pairwise (· ≤ ·) ∧ (∀ offset ∈ c.cuts round, offset ≤ t.byteLength ∧ t.IsBoundary offset) ∧
      ∀ next, c.next? d round = some next → c.pos < next.pos ∧ next.pos ≤ t.byteLength := by
  have hone := Cursor.byteLength_take_one d.opener_ne_nil hascii
  refine ⟨Cursor.finish?_eq hone (Cursor.tracks_start d head t), fun c hc => ?_⟩
  obtain ⟨s, hs⟩ := hc.exists_tracks hone
  obtain ⟨round, hround, ⟨horder, hcuts⟩, -⟩ := hs.exists_round hone
  refine ⟨round, hround, horder, fun offset hin => ⟨(hcuts offset hin).le, hcuts offset hin⟩, fun next hnext => ?_⟩
  have hlater := (Cursor.pos_lt_of_next? hround hnext).1
  obtain ⟨s', hs'⟩ := (hc.next hround hnext).exists_tracks hone
  have hplace := hs'.isBoundary (p := []) (q := s'.rest) rfl
  rw [Text.byteLength_nil, Nat.add_zero, ← hs'.pos] at hplace
  exact ⟨hlater, hplace.le⟩

/-- A round that passes a character of three bytes before the opener and one of two behind it. -/
theorem scan_by_offsets_wide : (∀ x ∈ CommentStyle.blockDelimiters.opener, x.toNat < 128) ∧
    Cursor.start.finish? CommentStyle.blockDelimiters .block "図/* é */ /* mermaid pie */".toList =
      some (scan CommentStyle.blockDelimiters .block "図/* é */ /* mermaid pie */".toList) ∧
    ∃ round next, Cursor.start.round? CommentStyle.blockDelimiters .block "図/* é */ /* mermaid pie */".toList =
        some round ∧ Cursor.start.next? CommentStyle.blockDelimiters round = some next ∧
      Cursor.start.cuts round = [0, 5, 9] ∧
      (∀ offset ∈ Cursor.start.cuts round, Text.IsBoundary "図/* é */ /* mermaid pie */".toList offset) ∧
      next.pos = 4 := by
  have hall : CommentStyle.blockDelimiters.opener.all (fun x => decide (x.toNat < 128)) = true := by decide
  have hascii : ∀ x ∈ CommentStyle.blockDelimiters.opener, x.toNat < 128 :=
    fun x hx => of_decide_eq_true (List.all_eq_true.1 hall x hx)
  obtain ⟨hfound, hrounds⟩ := scan_by_offsets hascii .block "図/* é */ /* mermaid pie */".toList
  obtain ⟨round, hround, -, hcuts, -⟩ := hrounds _ .start
  have hfirst : Cursor.start.round? CommentStyle.blockDelimiters .block "図/* é */ /* mermaid pie */".toList =
      some (.rejected 3 5 9) := by decide
  obtain rfl := Option.some.inj (hround.symm.trans hfirst)
  exact ⟨hascii, hfound, _, _, hround, rfl, rfl, fun offset hin => (hcuts offset hin).2, rfl⟩

-- behind an opener of two bytes the next round would begin inside its character
example : let d : Delimiters := ⟨['é'], ['!'], by simp, by simp⟩
    ((Cursor.start.round? d .block ['é', '!']).bind (Cursor.start.next? d)).map (·.round? d .block ['é', '!']) =
      some none := by
  decide

end Marginalia
