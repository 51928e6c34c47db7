import Marginalia.Command.Languages
import Marginalia.Proofs.Settings.Lookup
import Marginalia.Proofs.Text.Lines
/-!
# The extensions that are listed

`languages` lists for a language the extensions that it has by itself, and behind them those of the entries that name
it; a file is looked up in the table that was made from the same entries.  What is taken for a language is always listed
for it, but not the other way round.  An entry for an extension that a language has by itself takes it away from that
language, and it is listed for both; and an entry whose extension has two dots in front is listed without them, although
the dots remain in the table.  An extension is listed where it is taken exactly if the entries that show it are
`Consistent` about it (`lists_iff_takes`).
-/
namespace Marginalia

namespace Languages

open Marginalia.Configuration (UpToDate load extensionKey? redirections redirected load_redirections)

/-! ## What is listed -/

/-- A configured extension as it is listed, without the dot. -/
def bareExtension (ext : String) : String := (String.ofList (ext.toList.dropWhile (· == '.'))).toLower

/-- `.ext` is one of the extensions that are listed for the language. -/
def Lists (c : Configuration) (language : Language) (ext : String) : Prop := "." ++ ext ∈ extensions c language

variable {c : Configuration} {language : Language} {ext : String}

theorem lists_iff : Lists c language ext ↔ ext ∈ language.extensions ∨
    ∃ entry ∈ c.settings.extensions, entry.2 = language.id ∧ bareExtension entry.1 = ext := by
  have hdot : ∀ s : String, "." ++ s = "." ++ ext ↔ s = ext := fun s => String.append_right_inj "."
  have hshown : ∀ s : String, shownExtension s = "." ++ ext ↔ bareExtension s = ext := fun s => hdot (bareExtension s)
  unfold Lists extensions
  simp only [List.mem_append, List.mem_map, List.mem_mergeSort, List.mem_filter, hdot, hshown, beq_iff_eq]
  simp [and_assoc]

/-! ## The words of a line -/

/-- What stands between the spaces of a line. -/
def words (s : String) : List String := ((Text.split ' ' s.toList).filter (· ≠ [])).map String.ofList

theorem words_append (a b : String) : words (a ++ " " ++ b) = words a ++ words b := by
  have htext : (a ++ " " ++ b).toList = a.toList ++ ' ' :: b.toList := by simp
  unfold words
  rw [htext, Text.split_append, List.filter_append, List.map_append]

theorem words_of_not_mem {s : String} (hspace : ' ' ∉ s.toList) (hne : s ≠ "") : words s = [s] := by
  unfold words
  rw [Text.split_eq_singleton hspace]
  simp [hne]

theorem words_append_blank (n : Nat) (s : String) : words (s ++ String.ofList (List.replicate n ' ')) = words s := by
  induction n generalizing s with
  | zero => simp
  | succ n ih =>
    have hblank : words (String.ofList (List.replicate n ' ')) = [] := by
      have hempty := ih ""
      rw [String.empty_append] at hempty
      rw [hempty]
      decide
    have hcons : s ++ String.ofList (List.replicate (n + 1) ' ') = s ++ " " ++ String.ofList (List.replicate n ' ') := by
      apply String.toList_inj.1
      simp [List.replicate_succ]
    rw [hcons, words_append, hblank, List.append_nil]

theorem words_pad (width : Nat) (s : String) : words (pad width s) = words s := words_append_blank _ s

theorem words_intercalate : ∀ {items : List String}, (∀ item ∈ items, ' ' ∉ item.toList ∧ item ≠ "") →
    words (" ".intercalate items) = items
  | [], _ => by decide
  | [item], h => by
    obtain ⟨hspace, hne⟩ := h item List.mem_cons_self
    rw [String.intercalate_singleton, words_of_not_mem hspace hne]
  | item :: next :: items, h => by
    obtain ⟨hspace, hne⟩ := h item List.mem_cons_self
    rw [String.intercalate_cons_cons, words_append, words_of_not_mem hspace hne,
      words_intercalate fun i hi => h i (List.mem_cons_of_mem _ hi)]
    rfl

theorem space_not_mem_shownExtension {ext : String} (h : ' ' ∉ ext.toList) : ' ' ∉ (shownExtension ext).toList := by
  unfold shownExtension String.toLower
  simp only [String.toList_append, String.toList_map, String.toList_ofList, List.mem_append, List.mem_map, not_or, not_exists,
    not_and]
  refine ⟨by decide, fun c hc hlower => h ?_⟩
  rw [← eq_of_toLower_eq hlower (by decide)]
  exact (List.dropWhile_sublist _).subset hc

theorem space_not_mem_extensions (h : ∀ entry ∈ c.settings.extensions, ' ' ∉ entry.1.toList) :
    ∀ item ∈ extensions c language, ' ' ∉ item.toList ∧ item ≠ "" := by
  intro item hitem
  unfold extensions at hitem
  rw [List.mem_append, List.mem_mergeSort, List.mem_map, List.mem_map] at hitem
  rcases hitem with ⟨ext, hext, rfl⟩ | ⟨entry, hentry, rfl⟩
  · revert ext
    cases language <;> decide
  · refine ⟨space_not_mem_shownExtension (h entry (List.mem_filter.1 hentry).1), ?_⟩
    unfold shownExtension
    simp

/-- **The words of a line are the language, its extensions and the grammar**, as no extension has a space in it. -/
theorem words_line (h : ∀ entry ∈ c.settings.extensions, ' ' ∉ entry.1.toList) (language : Language) :
    words (line c language) = language.id :: extensions c language ++ ["parser:", language.grammar.language.id] := by
  have hid : ∀ language : Language, words language.id = [language.id] := fun language =>
    words_of_not_mem (by cases language <;> decide) (by cases language <;> decide)
  have hline : line c language = pad 16 language.id ++ " " ++ pad 20 (" ".intercalate (extensions c language)) ++ " " ++
      "parser:" ++ " " ++ language.grammar.language.id := by
    apply String.toList_inj.1
    unfold line
    simp [toString]
  have hparser : words "parser:" = ["parser:"] := by decide
  rw [hline, words_append, words_append, words_append, words_pad, words_pad, words_intercalate (space_not_mem_extensions h),
    hid, hid, hparser]
  simp

/-- A listed extension is a word of the line. -/
theorem mem_words_line_iff (h : ∀ entry ∈ c.settings.extensions, ' ' ∉ entry.1.toList) :
    "." ++ ext ∈ words (line c language) ↔ Lists c language ext := by
  have hne : ∀ s : String, s.toList.head? ≠ some '.' → "." ++ ext ≠ s := by
    rintro _ hs rfl
    simp at hs
  have hid : ∀ language : Language, "." ++ ext ≠ language.id := fun language => hne _ (by cases language <;> decide)
  have hparser : "." ++ ext ≠ "parser:" := hne _ (by decide)
  rw [words_line h]
  unfold Lists
  simp [hid, hparser]

/-! ## What is taken -/

/-- A file whose name ends in `.ext` is taken to be in the language. -/
def Takes (c : Configuration) (language : Language) (ext : String) : Prop :=
  c.languageOf? (RawText.ofString ("f." ++ ext)) = some language

/-- An extension in small letters that can stand behind the last dot of a name. -/
structure IsPlain (ext : String) : Prop where
  ne_empty : ext ≠ ""
  lower : ext.toLower = ext
  no_dot : '.' ∉ ext.toList
  no_slash : '/' ∉ ext.toList

theorem IsPlain.extensionKey? (h : IsPlain ext) : extensionKey? (RawText.ofString ("f." ++ ext)) = some ext := by
  have hdot : Path.dot ∉ RawText.ofString ext := mt (RawText.mem_ofString_iff (by decide)).1 h.no_dot
  have hslash : Path.slash ∉ RawText.ofString ext := mt (RawText.mem_ofString_iff (by decide)).1 h.no_slash
  have hname : RawText.ofString ("f." ++ ext) = 'f'.toUInt8 :: Path.dot :: RawText.ofString ext :=
    RawText.ofString_append ..
  have hcomponent : Path.component? (RawText.ofString ("f." ++ ext)) = some (.name (RawText.ofString ("f." ++ ext))) := by
    unfold Path.component?
    rw [hname, if_neg (by simp), if_neg]
    exact fun h => absurd (List.cons.inj h).1 (by decide)
  have hfile : Path.slash ∉ RawText.ofString ("f." ++ ext) := by
    rw [hname, List.mem_cons, List.mem_cons, not_or, not_or]
    exact ⟨by decide, by decide, hslash⟩
  have hfileName := Path.EndsIn.fileName? (Or.inl rfl) hfile hcomponent
  have hext : Path.extension? (RawText.ofString ("f." ++ ext)) = some (RawText.ofString ext) :=
    Path.extension?_eq_some_iff.2 ⟨['f'.toUInt8], by decide, hdot, by rw [hfileName, hname]; rfl⟩
  rw [Configuration.extensionKey?_eq hext, h.lower]

/-- An entry whose extension is `ext` with at most one dot in front is listed as `.ext`. -/
theorem bareExtension_of_normalize {k : String} (hdot : '.' ∉ ext.toList) (h : normalizeExtension k = ext) :
    bareExtension k = ext := by
  have hlower : ∀ s : String, '.' ∈ s.toList → '.' ∈ s.toLower.toList := fun s hs => by
    unfold String.toLower
    rw [String.toList_map]
    exact List.mem_map.2 ⟨'.', hs, by decide⟩
  have hdrop : ∀ t : Text, '.' ∉ t → t.dropWhile (· == '.') = t := by
    intro t ht
    cases t with
    | nil => rfl
    | cons c t => exact List.dropWhile_cons_of_neg (by rintro hc; simp_all)
  unfold normalizeExtension at h
  unfold bareExtension
  split at h
  · rename_i rest hk
    have hrest : '.' ∉ rest := fun hmem => hdot (by rw [← h]; exact hlower _ (by simpa using hmem))
    rw [hk, List.dropWhile_cons_of_pos (by simp), hdrop rest hrest, h]
  · have hk : '.' ∉ k.toList := fun hmem => hdot (by rw [← h]; exact hlower k hmem)
    rw [hdrop _ hk, String.ofList_toList, h]

/-- What the entries have to be for an extension to be listed where it is taken: those that are listed with it name one
language, and the one that has it by itself if there is one; and if there are any, the extension is not lost on files,
because one of them has at most one dot in front or a language has it by itself. -/
structure Consistent (entries : List (String × String)) (ext : String) : Prop where
  one : ∀ a ∈ entries, ∀ b ∈ entries, bareExtension a.1 = ext → bareExtension b.1 = ext → a.2 = b.2
  own : ∀ entry ∈ entries, bareExtension entry.1 = ext → ∀ language : Language, ext ∈ language.extensions →
    entry.2 = language.id
  found : ∀ entry ∈ entries, bareExtension entry.1 = ext →
    (∃ a ∈ entries, normalizeExtension a.1 = ext) ∨ ∃ language : Language, ext ∈ language.extensions

section Loaded

variable (hmade : Configuration.compileExtensions c.settings.extensions = .ok c.languages)
include hmade

/-- Every entry names a language. -/
theorem exists_id {entry : String × String} (hentry : entry ∈ c.settings.extensions) :
    ∃ language : Language, entry.2 = language.id := by
  obtain ⟨-, language, hid⟩ := Configuration.good_of_compile hmade hentry
  exact ⟨language, hid.symm⟩

/-- An extension is taken as an entry for it says, or as the languages say that have it by themselves. -/
theorem takes_cases (hplain : IsPlain ext) :
    (∃ entry ∈ c.settings.extensions, ∃ found : Language, normalizeExtension entry.1 = ext ∧ entry.2 = found.id ∧
      ∀ language, Takes c language ext ↔ language = found) ∨
    (∀ entry ∈ c.settings.extensions, normalizeExtension entry.1 ≠ ext) ∧
      ∀ language, Takes c language ext ↔ ext ∈ language.extensions := by
  have hsaid := Configuration.says_lookup hmade ext
  unfold Takes
  simp only [Configuration.languageOf?_eq, hplain.extensionKey?, Option.bind_some]
  cases hlookup : c.languages.lookup ext with
  | none =>
    rw [hlookup] at hsaid
    refine Or.inr ⟨hsaid, fun language => ?_⟩
    rw [Option.none_or, Language.ofExtension?_eq_some_iff, hplain.lower]
  | some found =>
    rw [hlookup] at hsaid
    obtain ⟨entry, hentry, hcompile⟩ := hsaid
    obtain ⟨hnormal, -, hid⟩ := Configuration.compileExtension_eq_ok_iff.1 hcompile
    refine Or.inl ⟨entry, hentry, found, hnormal, (Language.ofId_eq_ok_iff.1 hid).symm, fun language => ?_⟩
    simp [eq_comm]

theorem lists_of_takes (hplain : IsPlain ext) (h : Takes c language ext) : Lists c language ext := by
  rcases takes_cases hmade hplain with ⟨entry, hentry, found, hnormal, hid, htakes⟩ | ⟨-, htakes⟩
  · obtain rfl := (htakes language).1 h
    exact lists_iff.2 (Or.inr ⟨entry, hentry, hid, bareExtension_of_normalize hplain.no_dot hnormal⟩)
  · exact lists_iff.2 (Or.inl ((htakes language).1 h))

theorem takes_of_lists (hplain : IsPlain ext) (hconsistent : Consistent c.settings.extensions ext)
    (h : Lists c language ext) : Takes c language ext := by
  rcases takes_cases hmade hplain with ⟨entry, hentry, found, hnormal, hid, htakes⟩ | ⟨hnone, htakes⟩
  · have hbare := bareExtension_of_normalize hplain.no_dot hnormal
    rw [htakes]
    apply Language.id_injective
    rcases lists_iff.1 h with hown | ⟨shown, hshown, hid', hbare'⟩
    · rw [← hconsistent.own entry hentry hbare language hown, hid]
    · rw [← hid', ← hid, hconsistent.one shown hshown entry hentry hbare' hbare]
  · rw [htakes]
    rcases lists_iff.1 h with hown | ⟨shown, hshown, hid, hbare⟩
    · exact hown
    · rcases hconsistent.found shown hshown hbare with ⟨entry, hentry, hnormal⟩ | ⟨other, hother⟩
      · exact absurd hnormal (hnone entry hentry)
      · rwa [← Language.id_injective ((hconsistent.own shown hshown hbare other hother).symm.trans hid)]

/-- The entries that show an extension are consistent about it, if it is listed only where it is taken. -/
theorem consistent_of_takes (hplain : IsPlain ext) (h : ∀ language, Lists c language ext → Takes c language ext) :
    Consistent c.settings.extensions ext := by
  have hunique : ∀ {language language' : Language}, Lists c language ext → Lists c language' ext → language = language' :=
    fun hlists hlists' => Option.some.inj ((h _ hlists).symm.trans (h _ hlists'))
  have hshown : ∀ {entry : String × String} {language : Language}, entry ∈ c.settings.extensions →
      entry.2 = language.id → bareExtension entry.1 = ext → Lists c language ext := fun hentry hid hbare =>
    lists_iff.2 (Or.inr ⟨_, hentry, hid, hbare⟩)
  refine ⟨fun a ha b hb hbare hbare' => ?_, fun entry hentry hbare language hown => ?_, fun entry hentry hbare => ?_⟩
  · obtain ⟨language, hid⟩ := exists_id hmade ha
    obtain ⟨language', hid'⟩ := exists_id hmade hb
    rw [hid, hid', hunique (hshown ha hid hbare) (hshown hb hid' hbare')]
  · obtain ⟨language', hid⟩ := exists_id hmade hentry
    rw [hid, hunique (hshown hentry hid hbare) (lists_iff.2 (Or.inl hown))]
  · obtain ⟨language, hid⟩ := exists_id hmade hentry
    have htaken := h language (hshown hentry hid hbare)
    rcases takes_cases hmade hplain with ⟨entry', hentry', -, hnormal, -⟩ | ⟨-, htakes⟩
    · exact Or.inl ⟨entry', hentry', hnormal⟩
    · exact Or.inr ⟨language, (htakes language).1 htaken⟩

end Loaded

/-- **Where the listed extensions are those that files are taken by.**  What a file is taken for is listed, and a listed
extension is a word of its line.  An extension is listed exactly where it is taken if and only if the entries that show
it are consistent about it, and then it is listed for one language at most.  An entry for an extension that another
language has by itself does not move it in the list: the extension is listed for both languages, and taken for the one
that the table names. -/
theorem lists_iff_takes {tree : FileTree} {base : Place} {named : Option RawText} {overrides : Overrides}
    (hload : load tree base named overrides = .ok c) (hplain : IsPlain ext) :
    (∀ language, Takes c language ext → Lists c language ext) ∧
    ((∀ language, Lists c language ext ↔ Takes c language ext) ↔ Consistent c.settings.extensions ext) ∧
    (Consistent c.settings.extensions ext →
      ∀ language language', Lists c language ext → Lists c language' ext → language = language') ∧
    (∀ entry ∈ c.settings.extensions, normalizeExtension entry.1 = ext → ∀ own other : Language,
      ext ∈ own.extensions → entry.2 = other.id → Lists c own ext ∧ Lists c other ext) ∧
    ((∀ entry ∈ c.settings.extensions, ' ' ∉ entry.1.toList) →
      ∀ language, "." ++ ext ∈ words (line c language) ↔ Lists c language ext) := by
  have hmade := (UpToDate.load hload).languages
  have htakes : Consistent c.settings.extensions ext → ∀ language, Lists c language ext → Takes c language ext :=
    fun hconsistent _ => takes_of_lists hmade hplain hconsistent
  refine ⟨fun _ => lists_of_takes hmade hplain, ⟨fun h => ?_, fun hconsistent language => ?_⟩,
    fun hconsistent language language' hlists hlists' => ?_, fun entry hentry hnormal own other hown hid => ?_,
    fun hspace language => mem_words_line_iff hspace⟩
  · exact consistent_of_takes hmade hplain fun language => (h language).1
  · exact ⟨htakes hconsistent language, lists_of_takes hmade hplain⟩
  · exact Option.some.inj ((htakes hconsistent _ hlists).symm.trans (htakes hconsistent _ hlists'))
  · have hbare := bareExtension_of_normalize hplain.no_dot hnormal
    exact ⟨lists_iff.2 (Or.inl hown), lists_iff.2 (Or.inr ⟨entry, hentry, hid, hbare⟩)⟩

theorem lists_iff_takes_redirected :
    load redirections [] none {} = .ok redirected ∧ IsPlain "es6" ∧
    (∀ language, Lists redirected language "es6" ↔ Takes redirected language "es6") ∧
    ∀ language, "." ++ "es6" ∈ words (line redirected language) ↔
      Lists redirected language "es6" := by
  have hplain : IsPlain "es6" := ⟨by decide, by decide +kernel, by decide, by decide⟩
  have hbare : ∀ entry ∈ redirected.settings.extensions, bareExtension entry.1 = "es6" →
      entry = (".ES6", "javascript") := by decide +kernel
  have hnew : ∀ language : Language, "es6" ∉ language.extensions := fun language => by cases language <;> decide
  have hconsistent : Consistent redirected.settings.extensions "es6" := by
    refine ⟨fun a ha b hb h h' => ?_, fun entry hentry h language hown => ?_, fun entry hentry h => ?_⟩
    · rw [hbare a ha h, hbare b hb h']
    · exact absurd hown (hnew language)
    · exact Or.inl ⟨(".ES6", "javascript"), by simp [redirected], by decide +kernel⟩
  obtain ⟨-, hiff, -, -, hwords⟩ := lists_iff_takes load_redirections hplain
  exact ⟨load_redirections, hplain, hiff.2 hconsistent, hwords (by decide)⟩

/-- A settings file that gives an extension of one language to another, and writes an extension with two dots. -/
def misleading : FileTree :=
  ⟨[(["miv.toml"], "[languages.extensions]\njs = \"typescript\"\n\"..vue\" = \"javascript\"\n".toUTF8)], []⟩

/-- What that file is loaded as. -/
def misled : Configuration where
  settings := { extensions := [("js", "typescript"), ("..vue", "javascript")] }
  languages := [("js", .typescript), (".vue", .javascript)]
  path := some "/miv.toml"

/-- An extension that is given to another language is listed for both, and one with two dots is listed although no file
is taken by it. -/
theorem override_not_moved :
    load misleading [] none {} = .ok misled ∧ IsPlain "js" ∧ IsPlain "vue" ∧
    Lists misled .javascript "js" ∧ Lists misled .typescript "js" ∧ misled.languageOf? "f.js" = some .typescript ∧
    Lists misled .javascript "vue" ∧ misled.languageOf? "f.vue" = none ∧
    line misled .javascript = "javascript       .js .mjs .cjs .vue   parser: typescript" ∧
    ¬ ∀ language ext, IsPlain ext → (Lists misled language ext ↔ Takes misled language ext) := by
  have hload : load misleading [] none {} = .ok misled := by decide +kernel
  have hjs : IsPlain "js" := ⟨by decide, by decide +kernel, by decide, by decide⟩
  have hvue : IsPlain "vue" := ⟨by decide, by decide +kernel, by decide, by decide⟩
  have hlisted : Lists misled .javascript "js" ∧ Lists misled .typescript "js" ∧ Lists misled .javascript "vue" := by
    unfold Lists
    decide +kernel
  have htaken : misled.languageOf? "f.js" = some .typescript ∧ misled.languageOf? "f.vue" = none := by decide +kernel
  refine ⟨hload, hjs, hvue, hlisted.1, hlisted.2.1, htaken.1, hlisted.2.2, htaken.2, by decide +kernel, fun h => ?_⟩
  have hjavascript : misled.languageOf? "f.js" = some .javascript := (h .javascript "js" hjs).1 hlisted.1
  rw [htaken.1] at hjavascript
  cases hjavascript

end Languages

end Marginalia
