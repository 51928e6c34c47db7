import Marginalia.Proofs.Comment.Marker
import Marginalia.Proofs.Comment.Plain
/-!
# The search finds what the plain scan finds

A search remembers a closer and a closer without marker.  `Search.Valid` says what these memories are worth: the
remembered closer is the first one behind an opener that stood here, and no comment that begins further on and ends
with the unmarked closer holds a marker inside.  Every round keeps that (`valid_take`, `valid_skip`), so in every round
the closer (`closer?_eq`) and the announcement (`announced?_eq`) are those of a fresh search, and the candidates of the
whole run are the plain scan's (`finish_eq`).
-/
namespace Marginalia

namespace Search

variable {d : Delimiters} {head : Head} {s : Search}

/-- What the search remembers is true of the text before it. -/
structure Valid (d : Delimiters) (head : Head) (s : Search) : Prop where
  closer : ∀ c ∈ s.closer, (∃ after, Text.IsFirst d.closer (s.rest.drop d.opener.length) c.body after) ∧
    c.offset = s.pos + Text.byteLength (s.rest.take (d.opener.length + c.body.length))
  unmarked : ∀ offset ∈ s.unmarked, ∀ passed inside body after, s.rest = passed ++ (d.opener ++ inside) →
    Text.IsFirst d.closer inside body after →
    offset = s.pos + Text.byteLength (passed ++ (d.opener ++ body)) → head.inside? body = none

theorem valid_start (d : Delimiters) (head : Head) (t : Text) : Valid d head ⟨0, t, none, none, []⟩ :=
  ⟨fun _ h => (by cases h), fun _ h => (by cases h)⟩

theorem advance?_eq_some_iff {n : Nat} {c c' : Closer} :
    c.advance? n = some c' ↔ n ≤ c.body.length ∧ c' = ⟨c.offset, c.body.drop n⟩ := by
  unfold Closer.advance?
  rw [Option.map_eq_some_iff]
  constructor
  · rintro ⟨body, hb, rfl⟩
    obtain ⟨hn, rfl⟩ := Text.pass?_eq_some_iff.1 hb
    exact ⟨hn, rfl⟩
  · rintro ⟨hn, rfl⟩
    exact ⟨_, Text.pass?_eq_some_iff.2 ⟨hn, rfl⟩, rfl⟩

def closerOf (d : Delimiters) (s : Search) (passed body : Text) : Closer :=
  ⟨s.pos + Text.byteLength (passed ++ (d.opener ++ body)), body⟩

/-- **The remembered closer is the one a fresh search finds.** -/
theorem closer?_eq (hs : s.Valid d head) {passed inside : Text} (hrest : s.rest = passed ++ (d.opener ++ inside)) :
    s.closer? d passed inside = (Text.cut? d.closer inside).map fun (body, _) => s.closerOf d passed body := by
  unfold closer?
  cases hc : s.closer.bind (Closer.advance? passed.length) with
  | none => simp only [closerOf, Text.byteLength_append, Nat.add_assoc]
  | some c' =>
    obtain ⟨c, hmem, hadv⟩ := Option.bind_eq_some_iff.1 hc
    obtain ⟨hn, rfl⟩ := advance?_eq_some_iff.1 hadv
    obtain ⟨⟨after, hfirst⟩, hoff⟩ := hs.closer c hmem
    have hinside : (s.rest.drop d.opener.length).drop passed.length = inside := by
      rw [hrest, List.drop_drop, Nat.add_comm, ← List.drop_drop, List.drop_left, List.drop_left]
    have hfirst' := hfirst.drop hn
    rw [hinside] at hfirst'
    have htake : s.rest.take (d.opener.length + c.body.length) =
        passed ++ (d.opener ++ c.body.drop passed.length) := by
      rw [hrest, hfirst'.eq, ← List.append_assoc d.opener, ← List.append_assoc passed]
      refine List.take_left' ?_
      simp only [List.length_append, List.length_drop]
      omega
    rw [htake] at hoff
    rw [Text.cut?_eq_some_iff.2 hfirst']
    simp only [Option.map_some, closerOf, hoff]

/-- **A body that is known to hold no marker inside holds none.** -/
theorem announced?_eq (hs : s.Valid d head) {passed inside body after : Text}
    (hrest : s.rest = passed ++ (d.opener ++ inside)) (hbody : Text.IsFirst d.closer inside body after) :
    s.announced? head (s.closerOf d passed body) = head.announced? body := by
  unfold announced? Head.announced? closerOf
  cases head.leading? body with
  | some raw => rfl
  | none =>
    dsimp only
    split
    · rename_i hmem
      rw [hs.unmarked _ (Option.mem_def.2 hmem) passed inside body after hrest hbody rfl]
    · rfl

/-- **What a round does**: it ends the search where no opener or no closer is left, and else it takes the comment of
the first opener or goes on behind that opener, by what the comment announces. -/
theorem round?_cases (hs : s.Valid d head) :
    (s.round? d head = none ∧ ¬ d.opener <:+: s.rest) ∨
    ∃ passed inside, Text.IsFirst d.opener s.rest passed inside ∧
      ((s.round? d head = none ∧ ¬ d.closer <:+: inside) ∨
      ∃ body after, Text.IsFirst d.closer inside body after ∧
        ((∃ raw, head.announced? body = some raw ∧
          s.round? d head = some (s.take d passed inside (s.closerOf d passed body) raw)) ∨
        (head.announced? body = none ∧ s.round? d head = some (s.skip d passed (s.closerOf d passed body))))) := by
  unfold round?
  cases hopen : Text.cut? d.opener s.rest with
  | none => exact Or.inl ⟨rfl, Text.cut?_eq_none_iff.1 hopen⟩
  | some pair =>
    obtain ⟨passed, inside⟩ := pair
    have hfirst := Text.cut?_eq_some_iff.1 hopen
    refine Or.inr ⟨passed, inside, hfirst, ?_⟩
    dsimp only
    rw [closer?_eq hs hfirst.eq]
    cases hclose : Text.cut? d.closer inside with
    | none => exact Or.inl ⟨rfl, Text.cut?_eq_none_iff.1 hclose⟩
    | some pair =>
      obtain ⟨body, after⟩ := pair
      have hbody := Text.cut?_eq_some_iff.1 hclose
      refine Or.inr ⟨body, after, hbody, ?_⟩
      rw [Option.map_some]
      dsimp only
      rw [announced?_eq hs hfirst.eq hbody]
      cases head.announced? body with
      | some raw => exact Or.inl ⟨raw, rfl, rfl⟩
      | none => exact Or.inr ⟨rfl, rfl⟩

/-! ## What a round keeps -/

variable {passed inside body after : Text}

theorem valid_take (hs : s.Valid d head) (hrest : s.rest = passed ++ (d.opener ++ inside))
    (hbody : Text.IsFirst d.closer inside body after) (raw : Text) :
    (s.take d passed inside (s.closerOf d passed body) raw).Valid d head := by
  have hnext : inside.drop (body.length + d.closer.length) = after := by
    rw [hbody.eq, ← List.append_assoc]
    exact List.drop_left' (by rw [List.length_append])
  refine ⟨fun _ h => (by cases h), fun offset hoff p i b a hp hb hat => ?_⟩
  have hlater : s.rest = (passed ++ (d.opener ++ (body ++ (d.closer ++ p)))) ++ (d.opener ++ i) := by
    have hpi : after = p ++ (d.opener ++ i) := by rw [← hp]; exact hnext.symm
    rw [hrest, hbody.eq, hpi]
    simp only [List.append_assoc]
  refine hs.unmarked offset hoff _ i b a hlater hb ?_
  rw [hat]
  simp only [take, closerOf, Text.byteLength_append]
  omega

theorem valid_skip (hrest : s.rest = passed ++ (d.opener ++ inside))
    (hbody : Text.IsFirst d.closer inside body after) (hnone : head.announced? body = none) :
    (s.skip d passed (s.closerOf d passed body)).Valid d head := by
  have hnext : s.rest.drop (passed.length + 1) = (d.opener ++ inside).drop 1 := by
    rw [hrest, ← List.drop_drop, List.drop_left]
  have hone : Text.byteLength (d.opener.take 1) + Text.byteLength ((d.opener ++ body).drop 1) =
      Text.byteLength (d.opener ++ body) := by
    rw [List.drop_append_of_le_length d.length_opener_pos, Text.byteLength_append, Text.byteLength_append,
      ← Nat.add_assoc, ← Text.byteLength_append, List.take_append_drop]
  constructor
  · intro c hc
    obtain ⟨hn, rfl⟩ := advance?_eq_some_iff.1 hc
    simp only [closerOf, skip] at hn ⊢
    rw [hnext]
    refine ⟨⟨after, ?_⟩, ?_⟩
    · rw [List.drop_drop, Nat.add_comm, ← List.drop_drop, List.drop_left]
      exact hbody.drop hn
    · have htake : ((d.opener ++ inside).drop 1).take (d.opener.length + (body.drop 1).length) =
          (d.opener ++ body).drop 1 := by
        rw [hbody.eq, ← List.append_assoc, List.drop_append_of_le_length (by simp; omega)]
        refine List.take_left' ?_
        simp only [List.length_drop, List.length_append]
        omega
      rw [htake]
      simp only [Text.byteLength_append] at hone ⊢
      omega
  · intro offset hoff p i b a hp hb hat
    obtain rfl := Option.some.inj hoff
    simp only [skip, closerOf] at hp hat
    rw [hnext] at hp
    -- both bodies end where the closer stands, so the later one is the end of the earlier one
    have hopener : d.opener ++ inside = d.opener.take 1 ++ (p ++ (d.opener ++ i)) := by
      rw [← hp, ← List.take_append_of_le_length d.length_opener_pos, List.take_append_drop]
    have hsame : d.opener ++ body = d.opener.take 1 ++ (p ++ (d.opener ++ b)) := by
      have htext : (d.opener ++ body) ++ (d.closer ++ after) =
          (d.opener.take 1 ++ (p ++ (d.opener ++ b))) ++ (d.closer ++ a) := by
        rw [hbody.eq, hb.eq] at hopener
        simpa only [List.append_assoc] using hopener
      refine Text.eq_of_byteLength_eq htext ?_
      simp only [Text.byteLength_append] at hat ⊢
      omega
    have hsuffix : b <:+ body := by
      have hend : b <:+ d.opener ++ body := by
        rw [hsame, ← List.append_assoc, ← List.append_assoc]
        exact List.suffix_append _ _
      refine List.suffix_of_suffix_length_le hend (List.suffix_append _ _) ?_
      have := congrArg List.length hsame
      simp only [List.length_append] at this
      omega
    exact Head.inside?_eq_none_of_suffix (Head.announced?_eq_none_iff.1 hnone).2 hsuffix

/-- **One round is one step of the plain scan**: what is found so far and what the plain scan finds in the rest are
together the same before and after it. -/
theorem round?_eq_some (hs : s.Valid d head) {next : Search} (h : s.round? d head = some next) :
    next.Valid d head ∧
      next.found.reverse ++ scanPlainly d head next.pos next.rest =
        s.found.reverse ++ scanPlainly d head s.pos s.rest := by
  rcases round?_cases hs with ⟨hnone, -⟩ | ⟨passed, inside, hopen, ⟨hnone, -⟩ | ⟨body, after, hbody, hstep⟩⟩
  · rw [hnone] at h; cases h
  · rw [hnone] at h; cases h
  rw [scanPlainly_of_isFirst hopen]
  rcases hstep with ⟨raw, hraw, hnext⟩ | ⟨hnone, hnext⟩
  · obtain rfl := Option.some.inj (hnext.symm.trans h)
    refine ⟨valid_take hs hopen.eq hbody raw, ?_⟩
    have hafter : inside.drop (body.length + d.closer.length) = after := by
      rw [hbody.eq, ← List.append_assoc]
      exact List.drop_left' (by rw [List.length_append])
    rw [scanPlainly_taken hbody hraw]
    simp only [take, closerOf, hafter, Delimiters.span, Text.byteLength_append, List.reverse_cons, List.append_assoc,
      List.singleton_append, Nat.add_assoc]
  · obtain rfl := Option.some.inj (hnext.symm.trans h)
    refine ⟨valid_skip hopen.eq hbody hnone, ?_⟩
    have hrest : s.rest.drop (passed.length + 1) = (d.opener ++ inside).drop 1 := by
      rw [hopen.eq, ← List.drop_drop, List.drop_left]
    rw [scanPlainly_rejected hbody hnone]
    simp only [skip, hrest]

theorem round?_eq_none (hs : s.Valid d head) (h : s.round? d head = none) :
    scanPlainly d head s.pos s.rest = [] := by
  rcases round?_cases hs with ⟨-, hopen⟩ | ⟨passed, inside, hopen, ⟨-, hclose⟩ | ⟨body, after, hbody, hstep⟩⟩
  · exact scanPlainly_eq_nil hopen _
  · rw [scanPlainly_of_isFirst hopen]
    refine scanPlainly_unclosed ?_ _
    rwa [List.drop_left]
  · rcases hstep with ⟨raw, -, hnext⟩ | ⟨-, hnext⟩ <;> rw [hnext] at h <;> cases h

/-- **A search that goes on to its end finds what the plain scan finds.** -/
theorem finish_eq (hs : s.Valid d head) :
    s.finish d head = s.found.reverse ++ scanPlainly d head s.pos s.rest := by
  fun_induction finish d head s with
  | case1 s h => rw [round?_eq_none hs h, List.append_nil]
  | case2 s next h _ ih =>
    obtain ⟨hnext, heq⟩ := round?_eq_some hs h
    rw [ih hnext, heq]

theorem finish_start (d : Delimiters) (head : Head) (t : Text) :
    finish d head ⟨0, t, none, none, []⟩ = scanPlainly d head 0 t := by
  rw [finish_eq (valid_start d head t), List.reverse_nil, List.nil_append]

end Search

/-- **The search in rounds and the plain scan find the same comments.** -/
theorem scan_eq_scanPlainly (d : Delimiters) (head : Head) (t : Text) : scan d head t = scanPlainly d head 0 t := by
  rw [scan, Search.finish_start]

end Marginalia
