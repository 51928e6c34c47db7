import Mathlib.Data.List.Nodup
import Marginalia.Proofs.Settings.Tables
/-!
# The order of configured extensions

Extensions are configured in no particular order, and two of them may be the same once they are normalized.  The table
that is made from them has each normalized extension once (`nodup_keys_of_compile`), and what it says about one comes
from an entry for it; where such entries agree, that leaves no room for their order.  A bad entry fails the table with
its own error, so where there is at most one of them the order makes no difference to the error either.  That is the
main result, `compileExtensions_perm`.
-/
namespace Marginalia

/-! ## Tables with each key once -/

section Keys

variable {α : Type}

/-- Setting the value of a key adds the key behind the others if it is new. -/
theorem keys_putEntry (key : String) (value : α) : ∀ entries : List (String × α),
    (putEntry key value entries).map Prod.fst =
      if key ∈ entries.map Prod.fst then entries.map Prod.fst else entries.map Prod.fst ++ [key]
  | [] => rfl
  | (k, v) :: entries => by
    have ih := keys_putEntry key value entries
    unfold putEntry
    by_cases hk : k = key
    · simp [hk]
    · have hbeq : (k == key) = false := beq_eq_false_iff_ne.2 hk
      rw [hbeq, if_neg Bool.false_ne_true, List.map_cons, ih]
      by_cases hmem : key ∈ entries.map Prod.fst
      · rw [if_pos hmem, List.map_cons, if_pos (List.mem_cons_of_mem _ hmem)]
      · rw [if_neg hmem, List.map_cons, if_neg (by simp [Ne.symm hk, hmem]), List.cons_append]

theorem mem_keys_putEntry {key k : String} {value : α} {entries : List (String × α)} :
    k ∈ (putEntry key value entries).map Prod.fst ↔ k ∈ entries.map Prod.fst ∨ k = key := by
  rw [keys_putEntry]
  split
  · rename_i hmem
    constructor
    · exact Or.inl
    · rintro (hk | rfl)
      · exact hk
      · exact hmem
  · simp

theorem nodup_keys_putEntry {key : String} {value : α} {entries : List (String × α)}
    (h : (entries.map Prod.fst).Nodup) : ((putEntry key value entries).map Prod.fst).Nodup := by
  rw [keys_putEntry]
  split
  · exact h
  · rename_i hnew
    exact List.Nodup.append h (List.nodup_singleton key) (by simpa using hnew)

/-- A table in which no key stands twice says what is in it. -/
theorem lookup_eq_some_iff_mem {key : String} {value : α} : ∀ {entries : List (String × α)},
    (entries.map Prod.fst).Nodup → (entries.lookup key = some value ↔ (key, value) ∈ entries)
  | [], _ => by simp
  | (k, v) :: entries, h => by
    obtain ⟨hk, hrest⟩ := List.nodup_cons.1 h
    rw [List.lookup_cons]
    by_cases hkey : key = k
    · subst hkey
      have hnot : (key, value) ∉ entries := fun hmem => hk (List.mem_map.2 ⟨_, hmem, rfl⟩)
      simp [hnot, eq_comm]
    · have hbeq : (key == k) = false := beq_eq_false_iff_ne.2 hkey
      rw [hbeq]
      simp [lookup_eq_some_iff_mem hrest, hkey]

/-- Two such tables that say the same have the same entries. -/
theorem perm_of_lookup_eq {table table' : List (String × α)} (h : (table.map Prod.fst).Nodup)
    (h' : (table'.map Prod.fst).Nodup) (heq : ∀ key, table.lookup key = table'.lookup key) : table.Perm table' := by
  rw [List.perm_ext_iff_of_nodup (List.Nodup.of_map _ h) (List.Nodup.of_map _ h')]
  rintro ⟨key, value⟩
  rw [← lookup_eq_some_iff_mem h, ← lookup_eq_some_iff_mem h', heq]

end Keys

namespace Language

theorem ofId_eq_ok_iff {id : String} {language : Language} : ofId id = .ok language ↔ language.id = id := by
  constructor
  · intro h
    unfold ofId at h
    split at h
    · rename_i found hfound
      obtain rfl := Except.ok.inj h
      simpa using List.find?_some hfound
    · cases h
  · rintro rfl
    cases language <;> decide

theorem id_injective : Function.Injective id := by
  intro language language' hid
  exact Except.ok.inj ((ofId_eq_ok_iff.2 hid).symm.trans (ofId_eq_ok_iff.2 rfl))

theorem exists_ofId_iff {id : String} : (∃ language, ofId id = .ok language) ↔ id ∈ all.map Language.id := by
  simp only [ofId_eq_ok_iff, List.mem_map]
  constructor
  · rintro ⟨language, hid⟩
    exact ⟨language, by cases language <;> decide, hid⟩
  · rintro ⟨language, -, hid⟩
    exact ⟨language, hid⟩

end Language

namespace Configuration

variable {entries other : List (String × String)} {table : List (String × Language)}

/-! ## The keys of the table -/

/-- **The table of extensions has each normalized extension once**, and no other key. -/
theorem keys_of_compile (h : compileExtensions entries = .ok table) : (table.map Prod.fst).Nodup ∧
    ∀ key, key ∈ table.map Prod.fst ↔ ∃ entry ∈ entries, normalizeExtension entry.1 = key := by
  induction entries using List.reverseRecOn generalizing table with
  | nil =>
    obtain rfl : [] = table := Except.ok.inj h
    simp
  | append_singleton entries last ih =>
    rw [compileExtensions_concat] at h
    cases hentries : compileExtensions entries with
    | error e => simp [hentries, Except.bind] at h
    | ok older =>
      cases hlast : compileExtension last.1 last.2 with
      | error e => simp [hentries, hlast, Except.bind, Except.map] at h
      | ok entry =>
        obtain ⟨hnodup, hkeys⟩ := ih hentries
        have hnormal := (compileExtension_eq_ok_iff.1 hlast).1
        simp only [hentries, hlast, Except.bind, Except.map, Except.ok.injEq] at h
        subst h
        refine ⟨nodup_keys_putEntry hnodup, fun key => ?_⟩
        rw [mem_keys_putEntry, hkeys, ← hnormal]
        simp [or_and_right, exists_or, eq_comm]

/-! ## Bad entries -/

/-- An entry that cannot be used: nothing remains of its extension, or its language is unknown. -/
def IsBad (entry : String × String) : Prop :=
  normalizeExtension entry.1 = "" ∨ entry.2 ∉ Language.all.map Language.id

instance (entry : String × String) : Decidable (IsBad entry) := inferInstanceAs (Decidable (_ ∨ _))

theorem isBad_iff {entry : String × String} : IsBad entry ↔ ∀ pair, compileExtension entry.1 entry.2 ≠ .ok pair := by
  unfold IsBad
  rw [← Language.exists_ofId_iff]
  constructor
  · rintro hbad ⟨key, language⟩ hcompile
    obtain ⟨rfl, hkey, hid⟩ := compileExtension_eq_ok_iff.1 hcompile
    exact hbad.elim hkey fun hunknown => hunknown ⟨language, hid⟩
  · intro h
    by_contra hgood
    obtain ⟨hkey, hknown⟩ := not_or.1 hgood
    obtain ⟨language, hid⟩ := not_not.1 hknown
    exact h (normalizeExtension entry.1, language) (compileExtension_eq_ok_iff.2 ⟨rfl, hkey, hid⟩)

/-- **A table is made exactly if no entry is bad.** -/
theorem exists_compile_iff : (∃ table, compileExtensions entries = .ok table) ↔ ∀ entry ∈ entries, ¬ IsBad entry := by
  have hfails : (∃ e, compileExtensions entries = .error e) ↔ ∃ entry ∈ entries, IsBad entry := by
    simp only [isBad_iff]
    exact compileExtensions_eq_error_iff
  cases hcompile : compileExtensions entries with
  | error e => simpa [hcompile] using hfails
  | ok table => simpa [hcompile] using hfails

/-- Every entry of a table that is made names an extension and a language. -/
theorem good_of_compile (h : compileExtensions entries = .ok table) {entry : String × String} (hentry : entry ∈ entries) :
    normalizeExtension entry.1 ≠ "" ∧ ∃ language : Language, language.id = entry.2 := by
  obtain ⟨hkey, hknown⟩ := not_or.1 (exists_compile_iff.1 ⟨_, h⟩ entry hentry)
  obtain ⟨language, hid⟩ := Language.exists_ofId_iff.2 (not_not.1 hknown)
  exact ⟨hkey, language, Language.ofId_eq_ok_iff.1 hid⟩

/-- A table that is not made fails with the error of one of its entries. -/
theorem exists_bad_of_error {e : ConfigurationError} (h : compileExtensions entries = .error e) :
    ∃ entry ∈ entries, IsBad entry ∧ compileExtension entry.1 entry.2 = .error e := by
  induction entries using List.reverseRecOn with
  | nil => cases h
  | append_singleton entries last ih =>
    rw [compileExtensions_concat] at h
    cases hentries : compileExtensions entries with
    | error e' =>
      rw [hentries] at h
      obtain rfl : e' = e := Except.error.inj h
      obtain ⟨entry, hentry, hbad⟩ := ih hentries
      exact ⟨entry, List.mem_append_left _ hentry, hbad⟩
    | ok older =>
      cases hlast : compileExtension last.1 last.2 with
      | ok entry => simp [hentries, hlast, Except.bind, Except.map] at h
      | error e' =>
        simp only [hentries, hlast, Except.bind, Except.map, Except.error.injEq] at h
        subst h
        refine ⟨last, by simp, isBad_iff.2 fun pair hpair => ?_, hlast⟩
        cases hlast.symm.trans hpair

/-! ## Any order -/

/-- Entries for the same normalized extension name the same language, if they name one. -/
def Agree (entries : List (String × String)) : Prop :=
  ∀ a ∈ entries, ∀ b ∈ entries, normalizeExtension a.1 = normalizeExtension b.1 →
    ∀ language language', Language.ofId a.2 = .ok language → Language.ofId b.2 = .ok language' → language = language'

/-- Entries agree if they come from a table of normalized extensions. -/
theorem agree_of_normalized {normalized : List (String × String)} (hkeys : (normalized.map Prod.fst).Nodup)
    (h : ∀ entry ∈ entries, (normalizeExtension entry.1, entry.2) ∈ normalized) : Agree entries := by
  intro a ha b hb hkey language language' hid hid'
  have hab := List.inj_on_of_nodup_map hkeys (h a ha) (h b hb) hkey
  rw [(Prod.mk.inj hab).2] at hid
  exact Except.ok.inj (hid.symm.trans hid')

/-- Entries that agree say one thing about each extension. -/
theorem Says.unique (hagree : Agree entries) {key : String} {said said' : Option Language}
    (h : Says entries key said) (h' : Says entries key said') : said = said' := by
  cases said with
  | none =>
    cases said' with
    | none => rfl
    | some language' =>
      obtain ⟨entry, hentry, hcompile⟩ := h'
      exact absurd (compileExtension_eq_ok_iff.1 hcompile).1 (h entry hentry)
  | some language =>
    obtain ⟨entry, hentry, hcompile⟩ := h
    obtain ⟨hkey, -, hid⟩ := compileExtension_eq_ok_iff.1 hcompile
    cases said' with
    | none => exact absurd hkey (h' entry hentry)
    | some language' =>
      obtain ⟨entry', hentry', hcompile'⟩ := h'
      obtain ⟨hkey', -, hid'⟩ := compileExtension_eq_ok_iff.1 hcompile'
      rw [hagree entry hentry entry' hentry' (hkey.trans hkey'.symm) _ _ hid hid']

theorem Says.perm (hperm : entries.Perm other) {key : String} {said : Option Language} (h : Says entries key said) :
    Says other key said := by
  cases said with
  | none => exact fun entry hentry => h entry (hperm.mem_iff.2 hentry)
  | some language =>
    obtain ⟨entry, hentry, hcompile⟩ := h
    exact ⟨entry, hperm.mem_iff.1 hentry, hcompile⟩

/-- **The order of the entries makes no difference**, where entries for the same normalized extension agree and at most
one entry is bad: in any two orders the same table is made, or the same error comes up.  A table is made exactly if no
entry is bad, and it has each normalized extension once. -/
theorem compileExtensions_perm (hperm : entries.Perm other) (hagree : Agree entries)
    (hbad : ∀ a ∈ entries, ∀ b ∈ entries, IsBad a → IsBad b → a = b) :
    ((∃ table table', compileExtensions entries = .ok table ∧ compileExtensions other = .ok table' ∧
        table.Perm table' ∧ ∀ key, table.lookup key = table'.lookup key) ∨
      ∃ e, compileExtensions entries = .error e ∧ compileExtensions other = .error e) ∧
    ((∃ table, compileExtensions entries = .ok table) ↔ ∀ entry ∈ entries, ¬ IsBad entry) ∧
    ∀ table, compileExtensions entries = .ok table → (table.map Prod.fst).Nodup ∧
      ∀ key, key ∈ table.map Prod.fst ↔ ∃ entry ∈ entries, normalizeExtension entry.1 = key := by
  refine ⟨?_, exists_compile_iff, fun table htable => keys_of_compile htable⟩
  by_cases hgood : ∀ entry ∈ entries, ¬ IsBad entry
  · obtain ⟨table, htable⟩ := exists_compile_iff.2 hgood
    obtain ⟨table', htable'⟩ := exists_compile_iff.2 fun entry hentry => hgood entry (hperm.mem_iff.2 hentry)
    have hlookup : ∀ key, table.lookup key = table'.lookup key := fun key =>
      (says_lookup htable key).unique hagree ((says_lookup htable' key).perm hperm.symm)
    exact Or.inl ⟨table, table', htable, htable',
      perm_of_lookup_eq (keys_of_compile htable).1 (keys_of_compile htable').1 hlookup, hlookup⟩
  · have hfails : ∀ {l : List (String × String)}, l.Perm entries → ∃ e, compileExtensions l = .error e := by
      intro l hl
      cases hcompile : compileExtensions l with
      | error e => exact ⟨e, rfl⟩
      | ok table => exact absurd (fun entry hentry => exists_compile_iff.1 ⟨table, hcompile⟩ entry (hl.mem_iff.2 hentry)) hgood
    obtain ⟨e, he⟩ := hfails (List.Perm.refl _)
    obtain ⟨e', he'⟩ := hfails hperm.symm
    obtain ⟨bad, hmem, hisBad, herror⟩ := exists_bad_of_error he
    obtain ⟨bad', hmem', hisBad', herror'⟩ := exists_bad_of_error he'
    -- There is only one entry that either error can come from.
    obtain rfl := hbad bad hmem bad' (hperm.mem_iff.2 hmem') hisBad hisBad'
    obtain rfl := Except.error.inj (herror.symm.trans herror')
    exact Or.inr ⟨e, he, he'⟩

/-- Extensions of which two are the same when they are normalized, and one has an unknown language. -/
def collided : List (String × String) := [("ES6", "javascript"), ("vue", "vue"), (".es6", "javascript"), ("kts", "go")]

/-- Those of them that are not bad. -/
def usable : List (String × String) := [("ES6", "javascript"), (".es6", "javascript"), ("kts", "go")]

theorem compileExtensions_perm_collided :
    (∃ e, compileExtensions collided = .error e ∧ compileExtensions collided.reverse = .error e) ∧
    ∃ table table', compileExtensions usable = .ok table ∧ compileExtensions usable.reverse = .ok table' ∧
      table.Perm table' ∧ ∀ key, table.lookup key = table'.lookup key := by
  have hcollided : Agree collided :=
    @agree_of_normalized _ [("es6", "javascript"), ("vue", "vue"), ("kts", "go")] (by decide) (by decide +kernel)
  have husable : Agree usable :=
    @agree_of_normalized _ [("es6", "javascript"), ("kts", "go")] (by decide) (by decide +kernel)
  have hvue : ∀ a ∈ collided, IsBad a → a = ("vue", "vue") := by decide +kernel
  have hgood : ∀ entry ∈ usable, ¬ IsBad entry := by decide +kernel
  obtain ⟨hsame, hmade, -⟩ := compileExtensions_perm (List.reverse_perm collided).symm hcollided
    fun a ha b hb hbad hbad' => (hvue a ha hbad).trans (hvue b hb hbad').symm
  obtain ⟨hsame', hmade', -⟩ := compileExtensions_perm (List.reverse_perm usable).symm husable
    fun a ha _ _ hbad => absurd hbad (hgood a ha)
  constructor
  · refine hsame.resolve_left ?_
    rintro ⟨table, -, htable, -⟩
    exact hmade.1 ⟨table, htable⟩ ("vue", "vue") (by simp [collided]) (by decide +kernel)
  · refine hsame'.resolve_right ?_
    rintro ⟨e, he, -⟩
    obtain ⟨table, htable⟩ := hmade'.2 hgood
    rw [he] at htable
    cases htable

end Configuration

end Marginalia
