import Marginalia.Comment.Delimited
import Marginalia.Proofs.Text.Occurrence
/-!
# The plain scan, opener by opener

`scanPlainly` walks a text character by character.  Here it is opened up once: it passes over text that no opener
begins in (`scanPlainly_passed`), it decides an opener by its own comment (`scanPlainly_taken`, `scanPlainly_rejected`),
and it finds nothing where no opener or no closer is left (`scanPlainly_eq_nil`, `scanPlainly_unclosed`).
-/
namespace Marginalia

variable {d : Delimiters} {head : Head}

namespace Delimiters

theorem body?_opener (d : Delimiters) (inside : Text) : d.body? (d.opener ++ inside) = Text.cut? d.closer inside := by
  rw [body?, List.drop_left]

theorem length_opener_pos (d : Delimiters) : 0 < d.opener.length := List.length_pos_iff.2 d.opener_ne_nil

end Delimiters

theorem scanPlainly_passed : ∀ {passed t : Text} {pos : Nat},
    (∀ p q, passed ++ t = p ++ (d.opener ++ q) → passed.length ≤ p.length) →
      scanPlainly d head pos (passed ++ t) = scanPlainly d head (pos + passed.byteLength) t
  | [], _, _, _ => by simp
  | c :: passed, t, pos, h => by
    have hno : ¬ d.opener.isPrefixOf (c :: (passed ++ t)) := by
      intro hp
      obtain ⟨q, hq⟩ := List.isPrefixOf_iff_prefix.1 hp
      have := h [] q hq.symm
      simp at this
    rw [List.cons_append, scanPlainly, if_neg hno, scanPlainly_passed, Text.byteLength_cons, Nat.add_assoc]
    intro p q hpq
    have := h (c :: p) q (by rw [List.cons_append, hpq, List.cons_append])
    simpa using this

theorem scanPlainly_of_isFirst {t passed inside : Text} (h : Text.IsFirst d.opener t passed inside) (pos : Nat) :
    scanPlainly d head pos t = scanPlainly d head (pos + passed.byteLength) (d.opener ++ inside) := by
  rw [h.eq]
  refine scanPlainly_passed fun p q hpq => h.first p q (h.eq.trans hpq)

theorem scanPlainly_eq_nil {t : Text} (h : ¬ d.opener <:+: t) (pos : Nat) : scanPlainly d head pos t = [] := by
  have hpassed : scanPlainly d head pos (t ++ []) = scanPlainly d head (pos + t.byteLength) [] :=
    scanPlainly_passed fun p q hpq => absurd (Text.infix_iff.2 ⟨p, q, by simpa using hpq⟩) h
  rw [List.append_nil] at hpassed
  rw [hpassed, scanPlainly]

theorem scanPlainly_opener (pos : Nat) (inside : Text) :
    scanPlainly d head pos (d.opener ++ inside) =
      match (Text.cut? d.closer inside).bind fun p => (head.announced? p.1).map (p, ·) with
      | some ((body, after), raw) => ⟨pos, pos + d.span body, raw⟩ :: scanPlainly d head (pos + d.span body) after
      | none => scanPlainly d head (pos + Text.byteLength (d.opener.take 1)) ((d.opener ++ inside).drop 1) := by
  obtain ⟨c, o, ho⟩ := List.exists_cons_of_ne_nil d.opener_ne_nil
  have hp : d.opener.isPrefixOf (c :: (o ++ inside)) := by
    rw [List.isPrefixOf_iff_prefix, ho]
    exact ⟨inside, rfl⟩
  have hbody : d.body? (c :: (o ++ inside)) = Text.cut? d.closer inside := by
    rw [← d.body?_opener, ho, List.cons_append]
  rw [ho, List.cons_append, scanPlainly, if_pos hp]
  simp only [List.take_succ_cons, List.take_zero, Text.byteLength_cons, Text.byteLength_nil, Nat.add_zero,
    List.drop_succ_cons, List.drop_zero]
  split
  · rename_i hnone
    rw [hbody] at hnone
    rw [hnone, Option.bind_none]
  · rename_i body after hsome
    rw [hbody] at hsome
    rw [hsome, Option.bind_some]
    cases head.announced? body <;> rfl

/-- **A comment that announces a diagram is taken, and the scan goes on behind it.** -/
theorem scanPlainly_taken {inside body after raw : Text} (hbody : Text.IsFirst d.closer inside body after)
    (hraw : head.announced? body = some raw) (pos : Nat) :
    scanPlainly d head pos (d.opener ++ inside) =
      ⟨pos, pos + d.span body, raw⟩ :: scanPlainly d head (pos + d.span body) after := by
  rw [scanPlainly_opener, Text.cut?_eq_some_iff.2 hbody, Option.bind_some, hraw, Option.map_some]

/-- **A comment that announces none is left, and the scan goes on one character behind its opener.** -/
theorem scanPlainly_rejected {inside body after : Text} (hbody : Text.IsFirst d.closer inside body after)
    (hnone : head.announced? body = none) (pos : Nat) :
    scanPlainly d head pos (d.opener ++ inside) =
      scanPlainly d head (pos + Text.byteLength (d.opener.take 1)) ((d.opener ++ inside).drop 1) := by
  rw [scanPlainly_opener, Text.cut?_eq_some_iff.2 hbody, Option.bind_some, hnone, Option.map_none]

theorem scanPlainly_unclosed : ∀ {t : Text}, ¬ d.closer <:+: t.drop d.opener.length → ∀ pos : Nat,
    scanPlainly d head pos t = []
  | [], _, _ => by rw [scanPlainly]
  | c :: t, h, pos => by
    have hnext : ¬ d.closer <:+: t.drop d.opener.length := by
      refine fun hin => h (hin.trans ?_)
      have : t.drop d.opener.length = ((c :: t).drop d.opener.length).drop 1 := by simp [List.drop_drop]
      rw [this]
      exact (List.drop_suffix _ _).isInfix
    rw [scanPlainly]
    split
    · split
      · exact scanPlainly_unclosed hnext _
      · rename_i body after hsome
        exact absurd (Text.cut?_eq_some_iff.1 hsome).occurs h
    · exact scanPlainly_unclosed hnext _

end Marginalia
