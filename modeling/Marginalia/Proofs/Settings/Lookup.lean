import Marginalia.Proofs.Path
import Marginalia.Proofs.Settings.History
import Marginalia.Proofs.Settings.Order
import Marginalia.Proofs.Text.Fold
import Marginalia.Proofs.Text.Raw
/-!
# The language of a path

A path is looked up by its extension in small letters.  Three things are brought to that form: the configured
extensions when the table is made, the extension of the path (`normalizeExtension_of_extension?`), and once more
whatever is looked up among the extensions that languages have by themselves, which is the same again
(`toLower_toLower`).  So the language of a path is what the entries for its extension say, or else the language that has
the extension by itself (`languageOf?_by_extension`).
-/
namespace Marginalia

/-! ## Small letters -/

theorem toLower_idem_char (c : Char) : c.toLower.toLower = c.toLower := by
  by_cases h : IsCapital c
  · refine toLower_of_not_capital fun hlower => ?_
    have hfirst := (isCapital_iff.1 h).1
    have hlast := (isCapital_iff.1 hlower).2
    rw [toNat_toLower_of_capital h] at hlast
    omega
  · rw [toLower_of_not_capital h, toLower_of_not_capital h]

/-- What stands before the small letters comes from itself only. -/
theorem eq_of_toLower_eq {c d : Char} (h : c.toLower = d) (hd : d.toNat < 97) : c = d := by
  by_cases hcapital : IsCapital c
  · have hfirst := (isCapital_iff.1 hcapital).1
    rw [← h, toNat_toLower_of_capital hcapital] at hd
    omega
  · rw [← h, toLower_of_not_capital hcapital]

theorem toLower_toLower (s : String) : s.toLower.toLower = s.toLower := by
  unfold String.toLower
  rw [String.map_map]
  congr 1
  funext c
  exact toLower_idem_char c

namespace Language

/-- No two languages have an extension in common. -/
theorem find?_extension : ∀ language : Language, ∀ ext ∈ language.extensions,
    all.find? (·.extensions.contains ext) = some language := by
  intro language
  cases language <;> decide

/-- **An extension belongs to the language that lists it**, in any ASCII case. -/
theorem ofExtension?_eq_some_iff {ext : String} {language : Language} :
    ofExtension? ext = some language ↔ ext.toLower ∈ language.extensions := by
  constructor
  · intro h
    simpa using List.find?_some h
  · exact find?_extension language ext.toLower

end Language

namespace Configuration

/-! ## The key of a path -/

theorem normalizeExtension_of_not_mem {ext : String} (h : '.' ∉ ext.toList) : normalizeExtension ext = ext.toLower := by
  unfold normalizeExtension
  split
  · rename_i rest hdot
    exact absurd (by simp [hdot]) h
  · rfl

/-- The extension of a path has no dot that could be dropped. -/
theorem normalizeExtension_of_extension? {path : RawText} {ext : String}
    (h : Path.extension? path = some (RawText.ofString ext)) : normalizeExtension ext = ext.toLower := by
  obtain ⟨-, -, hdot, -⟩ := Path.extension?_eq_some_iff.1 h
  exact normalizeExtension_of_not_mem (mt (RawText.mem_ofString_iff (by decide)).2 hdot)

/-- The extension of a path in small letters, if it is text. -/
def extensionKey? (path : RawText) : Option String := ((Path.extension? path).bind RawText.toString?).map String.toLower

theorem extensionKey?_eq {path : RawText} {ext : String} (h : Path.extension? path = some (RawText.ofString ext)) :
    extensionKey? path = some ext.toLower := by
  rw [extensionKey?, h, Option.bind_some, RawText.toString?_ofString, Option.map_some]

theorem languageOf?_eq (c : Configuration) (path : RawText) : c.languageOf? path =
    (extensionKey? path).bind fun key => (c.languages.lookup key).or (Language.ofExtension? key) := by
  have hkey : ((Path.extension? path).bind RawText.toString?).map normalizeExtension = extensionKey? path := by
    unfold extensionKey?
    cases htext : (Path.extension? path).bind RawText.toString? with
    | none => rfl
    | some ext =>
      obtain ⟨raw, hraw, hread⟩ := Option.bind_eq_some_iff.1 htext
      rw [RawText.toString?_eq_some_iff.1 hread] at hraw
      rw [Option.map_some, Option.map_some, normalizeExtension_of_extension? hraw]
  rw [languageOf?_eq_bind, hkey]

/-! ## Configurations whose tables are made -/

/-- The configuration comes from a resolve or a load that succeeded. -/
inductive UpToDate : Configuration → Prop
  | resolve {before c : Configuration} : before.resolve = (c, .ok ()) → UpToDate c
  | load {tree : FileTree} {base : Place} {named : Option RawText} {overrides : Overrides} {c : Configuration} :
      load tree base named overrides = .ok c → UpToDate c

variable {c : Configuration}

/-- Its table of extensions is made from its settings. -/
theorem UpToDate.languages (h : UpToDate c) : compileExtensions c.settings.extensions = .ok c.languages := by
  cases h with
  | @resolve before _ h =>
    refine (resolved_eq_ok (c := before) ?_).2.2
    unfold resolved
    rw [h]
  | load h => exact (load_eq_ok h).languages

/-! ## What a path is looked up by -/

/-- A configured entry for the extension of a path names the language of the path. -/
theorem languageOf?_of_entry (h : UpToDate c) (hagree : Agree c.settings.extensions) {path : RawText} {key : String}
    (hkey : extensionKey? path = some key) {entry : String × String} (hentry : entry ∈ c.settings.extensions)
    (hnormal : normalizeExtension entry.1 = key) :
    ∃ language : Language, language.id = entry.2 ∧ c.languageOf? path = some language := by
  obtain ⟨hne, language, hid⟩ := good_of_compile h.languages hentry
  have hsaid : Says c.settings.extensions key (some language) :=
    ⟨entry, hentry, compileExtension_eq_ok_iff.2 ⟨hnormal, hnormal ▸ hne, Language.ofId_eq_ok_iff.2 hid⟩⟩
  have hlookup := (says_lookup h.languages key).unique hagree hsaid
  refine ⟨language, hid, ?_⟩
  rw [languageOf?_eq, hkey, Option.bind_some, hlookup]
  rfl

/-- Without such an entry a path has the language that has its extension by itself. -/
theorem languageOf?_of_no_entry (h : UpToDate c) {path : RawText} {key : String} (hkey : extensionKey? path = some key)
    (hnone : ∀ entry ∈ c.settings.extensions, normalizeExtension entry.1 ≠ key) :
    c.languageOf? path = Language.ofExtension? key := by
  have hlookup : c.languages.lookup key = none := by
    have hsaid := says_lookup h.languages key
    cases hfound : c.languages.lookup key with
    | none => rfl
    | some language =>
      rw [hfound] at hsaid
      obtain ⟨entry, hentry, hcompile⟩ := hsaid
      exact absurd (compileExtension_eq_ok_iff.1 hcompile).1 (hnone entry hentry)
  rw [languageOf?_eq, hkey, Option.bind_some, hlookup]
  rfl

/-- Entries for other extensions make no difference. -/
theorem languageOf?_congr_entries {d : Configuration} (hc : UpToDate c) (hd : UpToDate d)
    (hagree : Agree c.settings.extensions) (hagree' : Agree d.settings.extensions) {path : RawText}
    (hsame : ∀ key, extensionKey? path = some key → ∀ entry : String × String, normalizeExtension entry.1 = key →
      (entry ∈ d.settings.extensions ↔ entry ∈ c.settings.extensions)) : d.languageOf? path = c.languageOf? path := by
  cases hkey : extensionKey? path with
  | none => rw [languageOf?_eq, languageOf?_eq, hkey, Option.bind_none, Option.bind_none]
  | some key =>
    by_cases hentry : ∃ entry ∈ c.settings.extensions, normalizeExtension entry.1 = key
    · obtain ⟨entry, hmem, hnormal⟩ := hentry
      obtain ⟨language, hid, hlanguage⟩ := languageOf?_of_entry hc hagree hkey hmem hnormal
      obtain ⟨language', hid', hlanguage'⟩ :=
        languageOf?_of_entry hd hagree' hkey ((hsame key hkey entry hnormal).2 hmem) hnormal
      have hof := Language.ofId_eq_ok_iff.2 hid
      rw [Language.ofId_eq_ok_iff.2 hid'] at hof
      rw [hlanguage, hlanguage', Except.ok.inj hof]
    · push Not at hentry
      rw [languageOf?_of_no_entry hc hkey hentry, languageOf?_of_no_entry hd hkey fun entry hmem hnormal =>
        hentry entry ((hsame key hkey entry hnormal).1 hmem) hnormal]

/-- **The language of a path goes by its extension in small letters**: it is the one that a configured entry for that
extension names, or else the one that has the extension by itself; an extension that is no text has none.  The extension
is what stands behind the last dot of the file's name; a slash at the end of the path makes no difference, nor do a slash
and a dot.  So paths whose extensions differ in case only have the same language, and entries for other extensions never
matter. -/
theorem languageOf?_by_extension (h : UpToDate c) (hagree : Agree c.settings.extensions) (path : RawText) :
    (Path.extension? path = none → c.languageOf? path = none) ∧
    (∀ ext, Path.extension? path = some ext → ext.toString? = none → c.languageOf? path = none) ∧
    (∀ ext : String, Path.extension? path = some (RawText.ofString ext) →
      (∀ entry ∈ c.settings.extensions, normalizeExtension entry.1 = ext.toLower →
        ∃ language : Language, language.id = entry.2 ∧ c.languageOf? path = some language) ∧
      ((∀ entry ∈ c.settings.extensions, normalizeExtension entry.1 ≠ ext.toLower) →
        ∀ language : Language, c.languageOf? path = some language ↔ ext.toLower ∈ language.extensions)) ∧
    (∀ ext, Path.extension? path = some ext ↔
      ∃ stem, stem ≠ [] ∧ Path.dot ∉ ext ∧ Path.fileName? path = some (stem ++ Path.dot :: ext)) ∧
    Path.fileName? (path ++ [Path.slash]) = Path.fileName? path ∧
    Path.fileName? (path ++ [Path.slash, Path.dot]) = Path.fileName? path ∧
    (∀ other, extensionKey? other = extensionKey? path → c.languageOf? other = c.languageOf? path) ∧
    ∀ d : Configuration, UpToDate d → Agree d.settings.extensions →
      (∀ key, extensionKey? path = some key → ∀ entry : String × String, normalizeExtension entry.1 = key →
        (entry ∈ d.settings.extensions ↔ entry ∈ c.settings.extensions)) →
      d.languageOf? path = c.languageOf? path := by
  refine ⟨fun hnone => ?_, fun ext hext hnone => ?_,
    fun ext hext => ⟨fun entry hentry hnormal => ?_, fun hnone language => ?_⟩,
    fun ext => Path.extension?_eq_some_iff, ?_, ?_, fun other hother => ?_,
    fun d hd hagree' hsame => languageOf?_congr_entries h hd hagree hagree' hsame⟩
  · rw [languageOf?_eq, extensionKey?, hnone]
    rfl
  · rw [languageOf?_eq, extensionKey?, hext, Option.bind_some, hnone]
    rfl
  · exact languageOf?_of_entry h hagree (extensionKey?_eq hext) hentry hnormal
  · rw [languageOf?_of_no_entry h (extensionKey?_eq hext) hnone, Language.ofExtension?_eq_some_iff, toLower_toLower]
  · exact Path.fileName?_append (by decide) (by decide)
  · exact Path.fileName?_append (by decide) (by decide)
  · rw [languageOf?_eq, languageOf?_eq, hother]

/-- A settings file that knows a new extension, and another language for an old one. -/
def redirections : FileTree :=
  ⟨[(["miv.toml"], "[languages.extensions]\n\".ES6\" = \"javascript\"\njs = \"typescript\"\n".toUTF8)], []⟩

/-- What that file is loaded as. -/
def redirected : Configuration where
  settings := { extensions := [(".ES6", "javascript"), ("js", "typescript")] }
  languages := [("es6", .javascript), ("js", .typescript)]
  path := some "/miv.toml"

theorem load_redirections : load redirections [] none {} = .ok redirected := by decide +kernel

theorem agree_redirected : Agree redirected.settings.extensions :=
  @agree_of_normalized _ [("es6", "javascript"), ("js", "typescript")] (by decide) (by decide +kernel)

theorem languageOf?_by_extension_redirected : UpToDate redirected ∧ Agree redirected.settings.extensions ∧
    redirected.languageOf? "lib/app.eS6" = some .javascript ∧ redirected.languageOf? "app.JS/." = some .typescript ∧
    redirected.languageOf? "app.js" = redirected.languageOf? "app.JS/." ∧ redirected.languageOf? ".js" = none ∧
    ∀ language : Language, redirected.languageOf? "main.go" = some language ↔ "go" ∈ language.extensions := by
  have h : UpToDate redirected := .load load_redirections
  have hES6 : Path.extension? "lib/app.eS6" = some (RawText.ofString "eS6") ∧ "eS6".toLower = "es6" := by decide +kernel
  have hJS : Path.extension? "app.JS/." = some (RawText.ofString "JS") ∧ "JS".toLower = "js" := by decide +kernel
  have hjs : Path.extension? "app.js" = some (RawText.ofString "js") ∧ "js".toLower = "js" := by decide +kernel
  have hgo : Path.extension? "main.go" = some (RawText.ofString "go") ∧ "go".toLower = "go" := by decide +kernel
  obtain ⟨-, -, hnew, -⟩ := languageOf?_by_extension h agree_redirected "lib/app.eS6"
  obtain ⟨-, -, hold, -, -, -, hcase, -⟩ := languageOf?_by_extension h agree_redirected "app.JS/."
  obtain ⟨-, -, hown, -⟩ := languageOf?_by_extension h agree_redirected "main.go"
  obtain ⟨hnone, -⟩ := languageOf?_by_extension h agree_redirected ".js"
  replace hnew := (hnew "eS6" hES6.1).1 (".ES6", "javascript") (by simp [redirected])
  replace hold := (hold "JS" hJS.1).1 ("js", "typescript") (by simp [redirected])
  replace hown := (hown "go" hgo.1).2
  rw [hES6.2] at hnew
  rw [hJS.2] at hold
  rw [hgo.2] at hown
  obtain ⟨language, hid, hlanguage⟩ := hnew (by decide +kernel)
  obtain ⟨language', hid', hlanguage'⟩ := hold (by decide +kernel)
  obtain rfl : language = .javascript := Language.id_injective hid
  obtain rfl : language' = .typescript := Language.id_injective hid'
  refine ⟨h, agree_redirected, hlanguage, hlanguage', hcase _ ?_, hnone (by decide +kernel), hown (by decide +kernel)⟩
  rw [extensionKey?_eq hJS.1, extensionKey?_eq hjs.1, hJS.2, hjs.2]

end Configuration

end Marginalia
