import Mathlib.Data.List.Forall2
import Mathlib.Data.List.Induction
import Marginalia.Settings.Configuration
/-!
# The tables that settings are compiled to

The excluded globs are compiled pattern by pattern, all of them or none (`mapM_eq_ok_iff`), and a path is excluded by
what one of the patterns compiles to.  The table of extensions is filled entry by entry, and what it says about an
extension comes from an entry for that extension (`says_lookup`), so the order of entries that agree does not matter.
-/
namespace Marginalia

section Compile

variable {α β ε : Type} {f : α → Except ε β}

/-- A list is compiled exactly if each of its items is. -/
theorem mapM_eq_ok_iff : ∀ {l : List α} {compiled : List β},
    l.mapM f = .ok compiled ↔ List.Forall₂ (fun a b => f a = .ok b) l compiled
  | [], compiled => by
    rw [List.mapM_nil, List.forall₂_nil_left_iff]
    exact ⟨fun h => (Except.ok.inj h).symm, fun h => congrArg Except.ok h.symm⟩
  | a :: l, compiled => by
    rw [List.mapM_cons, List.forall₂_cons_left_iff]
    simp only [← mapM_eq_ok_iff (l := l)]
    cases ha : f a with
    | error e => simp [bind, Except.bind]
    | ok b => cases hl : l.mapM f <;> simp [bind, Except.bind, pure, Except.pure, eq_comm]

/-- One item that is not compiled fails the whole list. -/
theorem mapM_eq_error_iff {l : List α} : (∃ e, l.mapM f = .error e) ↔ ∃ a ∈ l, ∀ b, f a ≠ .ok b := by
  induction l with
  | nil => simp [pure, Except.pure]
  | cons a l ih =>
    rw [List.mapM_cons]
    cases ha : f a with
    | error e => simp [ha, bind, Except.bind]
    | ok b =>
      simp only [List.exists_mem_cons_iff, ha, Except.ok.injEq, forall_eq', ne_eq, false_or, ← ih]
      cases l.mapM f <;> simp [bind, Except.bind, pure, Except.pure]

theorem mem_of_forall₂ {R : α → β → Prop} {l : List α} {m : List β} (h : List.Forall₂ R l m) :
    (∀ a ∈ l, ∃ b ∈ m, R a b) ∧ ∀ b ∈ m, ∃ a ∈ l, R a b := by
  induction h with
  | nil => simp
  | cons hab _ ih =>
    constructor
    · intro a ha
      rcases List.mem_cons.1 ha with rfl | ha
      · exact ⟨_, List.mem_cons_self, hab⟩
      · obtain ⟨b, hb, hR⟩ := ih.1 a ha
        exact ⟨b, List.mem_cons_of_mem _ hb, hR⟩
    · intro b hb
      rcases List.mem_cons.1 hb with rfl | hb
      · exact ⟨_, List.mem_cons_self, hab⟩
      · obtain ⟨a, ha, hR⟩ := ih.2 b hb
        exact ⟨a, List.mem_cons_of_mem _ ha, hR⟩

end Compile

theorem lookup_putEntry {α : Type} (key : String) (value : α) (k : String) :
    ∀ entries : List (String × α), (putEntry key value entries).lookup k = if k = key then some value else entries.lookup k
  | [] => by
    unfold putEntry
    by_cases hk : k = key
    · simp [hk]
    · simp [List.lookup_cons, hk, beq_eq_false_iff_ne.2 hk]
  | (k', v) :: entries => by
    have ih := lookup_putEntry key value k entries
    unfold putEntry
    by_cases hkey : k' = key
    · subst hkey
      by_cases hk : k = k'
      · simp [hk]
      · simp [List.lookup_cons, hk, beq_eq_false_iff_ne.2 hk]
    · by_cases hk : k = k'
      · subst hk
        simp [hkey]
      · simp [List.lookup_cons, hkey, ih, beq_eq_false_iff_ne.2 hk]

namespace Configuration

/-! ## Excluded paths -/

/-- A path is excluded by what one of the patterns compiles to, if it is text. -/
theorem isExcluded_iff {c : Configuration} {patterns : List String} (h : patterns.mapM compileExclude = .ok c.globs)
    (path : RawText) : c.isExcluded path = true ↔ ∃ text, path.toString? = some text ∧
      ∃ pattern ∈ patterns, ∃ glob, compileExclude pattern = .ok glob ∧ glob.isMatch text.toList = true := by
  unfold isExcluded
  cases path.toString? with
  | none => simp
  | some text =>
    simp only [Option.some.injEq, exists_eq_left', List.any_eq_true]
    obtain ⟨hpatterns, hglobs⟩ := mem_of_forall₂ (mapM_eq_ok_iff.1 h)
    constructor
    · rintro ⟨glob, hglob, hmatch⟩
      obtain ⟨pattern, hpattern, hcompile⟩ := hglobs glob hglob
      exact ⟨pattern, hpattern, glob, hcompile, hmatch⟩
    · rintro ⟨pattern, hpattern, glob, hcompile, hmatch⟩
      obtain ⟨glob', hglob, hcompile'⟩ := hpatterns pattern hpattern
      obtain rfl := Except.ok.inj (hcompile.symm.trans hcompile')
      exact ⟨glob, hglob, hmatch⟩

/-! ## Configured extensions -/

theorem compileExtension_eq_ok_iff {ext id key : String} {language : Language} :
    compileExtension ext id = .ok (key, language) ↔
      normalizeExtension ext = key ∧ key ≠ "" ∧ Language.ofId id = .ok language := by
  unfold compileExtension
  by_cases hkey : normalizeExtension ext = ""
  · rw [if_pos hkey]
    constructor
    · intro h
      cases h
    · rintro ⟨rfl, hne, -⟩
      exact absurd hkey hne
  · rw [if_neg hkey]
    cases Language.ofId id with
    | error e => simp
    | ok l =>
      simp only [Except.ok.injEq, Prod.mk.injEq]
      constructor
      · rintro ⟨rfl, rfl⟩
        exact ⟨rfl, hkey, rfl⟩
      · rintro ⟨rfl, -, rfl⟩
        exact ⟨rfl, rfl⟩

theorem compileExtensions_concat (entries : List (String × String)) (ext id : String) :
    compileExtensions (entries ++ [(ext, id)]) = (compileExtensions entries).bind fun table =>
      (compileExtension ext id).map fun entry => putEntry entry.1 entry.2 table := by
  rw [compileExtensions, List.foldlM_append, ← compileExtensions]
  simp only [List.foldlM_cons, List.foldlM_nil, bind_pure]
  cases compileExtensions entries with
  | error e => rfl
  | ok table => cases compileExtension ext id <;> rfl

/-- What entries say about an extension: that it has the language of an entry for it, or nothing if there is no such
entry. -/
def Says (entries : List (String × String)) (key : String) : Option Language → Prop
  | some language => ∃ entry ∈ entries, compileExtension entry.1 entry.2 = .ok (key, language)
  | none => ∀ entry ∈ entries, normalizeExtension entry.1 ≠ key

/-- **The table of extensions says what its entries say.** -/
theorem says_lookup {entries : List (String × String)} {table : List (String × Language)}
    (h : compileExtensions entries = .ok table) (key : String) : Says entries key (table.lookup key) := by
  induction entries using List.reverseRecOn generalizing table with
  | nil =>
    obtain rfl : [] = table := Except.ok.inj h
    exact fun entry hentry => absurd hentry List.not_mem_nil
  | append_singleton entries last ih =>
    rw [compileExtensions_concat] at h
    cases hentries : compileExtensions entries with
    | error e => simp [hentries, Except.bind] at h
    | ok older =>
      cases hlast : compileExtension last.1 last.2 with
      | error e => simp [hentries, hlast, Except.bind, Except.map] at h
      | ok entry =>
        obtain ⟨k, language⟩ := entry
        have hnormal := (compileExtension_eq_ok_iff.1 hlast).1
        simp only [hentries, hlast, Except.bind, Except.map, Except.ok.injEq] at h
        rw [← h, lookup_putEntry]
        by_cases hk : key = k
        · rw [if_pos hk, hk]
          exact ⟨last, by simp, hlast⟩
        · rw [if_neg hk]
          have holder := ih hentries
          revert holder
          cases older.lookup key with
          | some l => exact fun ⟨entry, hentry, hl⟩ => ⟨entry, List.mem_append_left _ hentry, hl⟩
          | none =>
            intro holder entry hentry
            rcases List.mem_append.1 hentry with hentry | hentry
            · exact holder entry hentry
            · rw [List.mem_singleton.1 hentry, hnormal]
              exact Ne.symm hk

/-- One entry that is not compiled fails the whole table. -/
theorem compileExtensions_eq_error_iff {entries : List (String × String)} :
    (∃ e, compileExtensions entries = .error e) ↔
      ∃ entry ∈ entries, ∀ pair, compileExtension entry.1 entry.2 ≠ .ok pair := by
  induction entries using List.reverseRecOn with
  | nil => simp [compileExtensions, pure, Except.pure]
  | append_singleton entries last ih =>
    rw [compileExtensions_concat]
    simp only [List.mem_append, List.mem_singleton, or_and_right, exists_or, exists_eq_left, ← ih]
    cases compileExtensions entries with
    | error e => simp [Except.bind]
    | ok older => cases compileExtension last.1 last.2 <;> simp [Except.bind, Except.map]

/-- What entries and the languages by themselves say about a path: the language of an entry for its extension if there
is one, else the language that the extension has by itself, and nothing without an extension or if it is no text. -/
def Answers (entries : List (String × String)) (path : RawText) (answer : Option Language) : Prop :=
  match ((Path.extension? path).bind RawText.toString?).map normalizeExtension with
  | none => answer = none
  | some key =>
    (∃ entry ∈ entries, ∃ language, compileExtension entry.1 entry.2 = .ok (key, language) ∧ answer = some language) ∨
      (∀ entry ∈ entries, normalizeExtension entry.1 ≠ key) ∧ answer = Language.ofExtension? key

theorem languageOf?_eq_bind (c : Configuration) (path : RawText) : c.languageOf? path =
    (((Path.extension? path).bind RawText.toString?).map normalizeExtension).bind fun key =>
      (c.languages.lookup key).or (Language.ofExtension? key) := by
  unfold languageOf?
  cases Path.extension? path with
  | none => rfl
  | some ext =>
    cases htext : ext.toString? with
    | none => simp [htext]
    | some text =>
      simp only [Option.bind_eq_bind, Option.bind_some, htext, Option.map_some]
      cases c.languages.lookup (normalizeExtension text) <;> rfl

theorem answers_languageOf? {c : Configuration} {entries : List (String × String)}
    (h : compileExtensions entries = .ok c.languages) (path : RawText) : Answers entries path (c.languageOf? path) := by
  rw [languageOf?_eq_bind]
  unfold Answers
  cases ((Path.extension? path).bind RawText.toString?).map normalizeExtension with
  | none => rfl
  | some key =>
    have hsaid := says_lookup h key
    rw [Option.bind_some]
    cases hlookup : c.languages.lookup key with
    | some language =>
      rw [hlookup] at hsaid
      obtain ⟨entry, hentry, hcompile⟩ := hsaid
      exact Or.inl ⟨entry, hentry, language, hcompile, rfl⟩
    | none =>
      rw [hlookup] at hsaid
      exact Or.inr ⟨hsaid, rfl⟩

end Configuration

end Marginalia
