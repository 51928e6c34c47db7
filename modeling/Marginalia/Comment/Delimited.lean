import Marginalia.Comment.Marker
/-!
# Comments between delimiters

A delimited comment runs from an opener to the first closer after it.  `scan` goes
through a text from left to right and collects the comments that announce a diagram.
Where an opener's comment announces none, the search goes on one character after the
opener, so an opener inside the body of a rejected comment gets its own try; where one
does, it goes on after the closer.

`scanPlainly` is this description word for word: at every opener it looks for the
closer and for the marker afresh.  `scan` does the same in linear time, in rounds that
remember two things.  The closer found last serves every opener whose body begins before
it.  And once a body holds no marker, neither does a later one before the same closer,
which is a part of it; only a marker that leads its body has to be looked for again.
-/
namespace Marginalia

/-- A comment that may hold a diagram: the bytes it takes in its document, delimiters
included, and its body behind the marker. -/
structure Candidate where
  start : Nat
  stop : Nat
  raw : Text
deriving DecidableEq, Repr

/-- What a comment is enclosed in.  Opener and closer may be the same text. -/
structure Delimiters where
  opener : Text
  closer : Text
  opener_ne_nil : opener ≠ []
  closer_ne_nil : closer ≠ []

namespace Delimiters

def of? (opener closer : Text) : Option Delimiters :=
  if h : opener ≠ [] ∧ closer ≠ [] then some ⟨opener, closer, h.1, h.2⟩ else none

/-- The body of the comment whose opener stands at the start of `t`, and what follows
its closer. -/
def body? (d : Delimiters) (t : Text) : Option (Text × Text) :=
  Text.cut? d.closer (t.drop d.opener.length)

def span (d : Delimiters) (body : Text) : Nat :=
  d.opener.byteLength + body.byteLength + d.closer.byteLength

/-- What follows a comment is shorter than the text that the comment begins. -/
theorem length_of_body? {d : Delimiters} {c : Char} {t body after : Text}
    (h : d.body? (c :: t) = some (body, after)) : after.length ≤ t.length := by
  have hle := Text.length_of_cut? h
  have hpos : 0 < d.opener.length := List.length_pos_iff.2 d.opener_ne_nil
  simp only [List.length_drop, List.length_cons] at hle
  omega

end Delimiters

/-- The comments of `t`, which stands at offset `pos`, that announce a diagram: at every
opener the closer and the marker are looked for afresh. -/
def scanPlainly (d : Delimiters) (head : Head) (pos : Nat) : Text → List Candidate
  | [] => []
  | c :: t =>
    if d.opener.isPrefixOf (c :: t) then
      match h : d.body? (c :: t) with
      | none => scanPlainly d head (pos + c.utf8Size) t
      | some (body, after) =>
        match head.announced? body with
        | some raw =>
          have : after.length < t.length + 1 := Nat.lt_succ_of_le (Delimiters.length_of_body? h)
          ⟨pos, pos + d.span body, raw⟩ :: scanPlainly d head (pos + d.span body) after
        | none => scanPlainly d head (pos + c.utf8Size) t
    else scanPlainly d head (pos + c.utf8Size) t
termination_by t => t.length

/-- A closer that was found, as seen from some place of the document. -/
structure Closer where
  /-- The offset at which it stands. -/
  offset : Nat
  /-- The body of a comment whose opener stood at the place. -/
  body : Text
deriving DecidableEq, Repr

/-- The closer seen from `n` characters further on, unless it stands before the body of a
comment opened there. -/
def Closer.advance? (n : Nat) (closer : Closer) : Option Closer :=
  (Text.pass? n closer.body).map (⟨closer.offset, ·⟩)

/-- How far the search for comments has come. -/
structure Search where
  /-- The offset at which it goes on. -/
  pos : Nat
  /-- The text from there on. -/
  rest : Text
  /-- The closer found last, as long as comments can end with it. -/
  closer : Option Closer
  /-- The offset of a closer before which no body holds a marker. -/
  unmarked : Option Nat
  /-- The candidates so far, in reverse. -/
  found : List Candidate
deriving DecidableEq, Repr

namespace Search

/-- The first closer for the comment whose opener stands `passed` characters further on
and is followed by `inside`: the closer found last, if it stands there. -/
def closer? (d : Delimiters) (s : Search) (passed inside : Text) : Option Closer :=
  match s.closer.bind (Closer.advance? passed.length) with
  | some closer => some closer
  | none => (Text.cut? d.closer inside).map fun (body, _) =>
      ⟨s.pos + passed.byteLength + d.opener.byteLength + body.byteLength, body⟩

/-- What the body of a comment that ends with `closer` holds behind its marker.  A body
that is known to hold no marker is asked for a leading one only. -/
def announced? (head : Head) (s : Search) (closer : Closer) : Option Text :=
  match head.leading? closer.body with
  | some raw => some raw
  | none => if s.unmarked = some closer.offset then none else head.inside? closer.body

/-- The search behind a comment that was taken: its opener stands `passed` characters further
on and is followed by `inside`, and it ends with `closer`. -/
def take (d : Delimiters) (s : Search) (passed inside : Text) (closer : Closer) (raw : Text) : Search :=
  let stop := closer.offset + d.closer.byteLength
  { pos := stop
    rest := inside.drop (closer.body.length + d.closer.length)
    -- the closer stands before `stop`, and so before every later body
    closer := none
    unmarked := s.unmarked
    found := ⟨s.pos + passed.byteLength, stop, raw⟩ :: s.found }

/-- The search one character after the opener of a comment that announces nothing. -/
def skip (d : Delimiters) (s : Search) (passed : Text) (closer : Closer) : Search :=
  { pos := s.pos + passed.byteLength + Text.byteLength (d.opener.take 1)
    rest := s.rest.drop (passed.length + 1)
    closer := closer.advance? 1
    unmarked := some closer.offset
    found := s.found }

/-- One round of the search, which decides the next opener; none if the search is over,
as no opener or no closer is left. -/
def round? (d : Delimiters) (head : Head) (s : Search) : Option Search :=
  match Text.cut? d.opener s.rest with
  | none => none
  | some (passed, inside) =>
    match s.closer? d passed inside with
    | none => none
    | some closer =>
      match s.announced? head closer with
      | some raw => some (s.take d passed inside closer raw)
      | none => some (s.skip d passed closer)

theorem length_of_round? {d : Delimiters} {head : Head} {s next : Search}
    (h : s.round? d head = some next) : next.rest.length < s.rest.length := by
  have hpos : 0 < d.opener.length := List.length_pos_iff.2 d.opener_ne_nil
  unfold round? at h
  split at h
  · cases h
  rename_i passed inside hcut
  have hlen := congrArg List.length (Text.eq_of_cut? hcut)
  simp only [List.length_append] at hlen
  split at h
  · cases h
  split at h
  all_goals
    obtain rfl := Option.some.inj h
    simp only [take, skip, List.length_drop]
    omega

def finish (d : Delimiters) (head : Head) (s : Search) : List Candidate :=
  match h : s.round? d head with
  | none => s.found.reverse
  | some next =>
    have : next.rest.length < s.rest.length := length_of_round? h
    finish d head next
termination_by s.rest.length

end Search

/-- The comments of a document that announce a diagram, from left to right. -/
def scan (d : Delimiters) (head : Head) (t : Text) : List Candidate :=
  Search.finish d head ⟨0, t, none, none, []⟩

end Marginalia
