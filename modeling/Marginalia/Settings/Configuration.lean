import Marginalia.FileTree
import Marginalia.Glob
import Marginalia.Language
import Marginalia.Settings.Basic
/-!
# Configurations

A configuration is a set of settings together with the tables that look-ups use: the
globs of the excluded paths, and the languages of the configured extensions.  The
tables are made from the settings by `resolve` and stay as they are when only the
settings change.  A table is made whole or not at all: the globs come first, and when
one of them is bad neither table changes; when an extension is bad only the globs do.
-/
namespace Marginalia

inductive ConfigurationError
  | notFound (path : RawText)
  | unreadable (error : ReadError)
  | notToml
  | emptyExclude
  | badExclude (pattern : String) (error : GlobError)
  | emptyExtension
  | badExtension (ext : String) (error : UnknownLanguage)
deriving DecidableEq, Repr

namespace ConfigurationError

def message : ConfigurationError → String
  | notFound path => s!"Configuration file not found: {path.display}"
  | unreadable error => s!"I/O error: {error.message}"
  | notToml => "TOML parse error"
  | emptyExclude => "Configuration error: scan.exclude pattern cannot be empty"
  | badExclude pattern error =>
    s!"Configuration error: scan.exclude pattern '{pattern}' is invalid: {error.message}"
  | emptyExtension => "Configuration error: languages.extensions key cannot be empty"
  | badExtension ext error => s!"Configuration error: languages.extensions.{ext}: {error.message}"

end ConfigurationError

/-- An extension as it is looked up: in small ASCII letters and without a dot in front. -/
def normalizeExtension (ext : String) : String :=
  match ext.toList with
  | '.' :: rest => (String.ofList rest).toLower
  | _ => ext.toLower

structure Configuration where
  settings : Settings := {}
  /-- The globs of the excluded paths. -/
  globs : List Glob := []
  /-- The languages of the configured extensions, by normalized extension. -/
  languages : List (String × Language) := []
  /-- The settings file that was read. -/
  path : Option RawText := none
deriving DecidableEq, Repr, Inhabited

namespace Configuration

def compileExclude (pattern : String) : Except ConfigurationError Glob :=
  if pattern = "" then .error .emptyExclude
  else match Glob.ofText pattern.toList with
    | .ok glob => .ok glob
    | .error e => .error (.badExclude pattern e)

def compileExtension (ext id : String) : Except ConfigurationError (String × Language) :=
  let key := normalizeExtension ext
  if key = "" then .error .emptyExtension
  else match Language.ofId id with
    | .ok language => .ok (key, language)
    | .error e => .error (.badExtension ext e)

def compileExtensions (extensions : List (String × String)) :
    Except ConfigurationError (List (String × Language)) :=
  extensions.foldlM (fun table (ext, id) => do
    let (key, language) ← compileExtension ext id
    return putEntry key language table) []

def resolve (c : Configuration) : Configuration × Except ConfigurationError Unit :=
  match c.settings.exclude.mapM compileExclude with
  | .error e => (c, .error e)
  | .ok globs =>
    match compileExtensions c.settings.extensions with
    | .error e => ({ c with globs }, .error e)
    | .ok languages => ({ c with globs, languages }, .ok ())

/-- A resolved configuration, or the reason why it cannot be resolved. -/
def resolved (c : Configuration) : Except ConfigurationError Configuration :=
  match c.resolve with
  | (c, .ok ()) => .ok c
  | (_, .error e) => .error e

/-- The configuration that a text writes in TOML, not yet resolved. -/
def ofText (text : String) : Except ConfigurationError Configuration :=
  match Settings.ofText? text with
  | some settings => .ok { settings }
  | none => .error .notToml

def ofFile (tree : FileTree) (path : RawText) (place : Place) :
    Except ConfigurationError Configuration :=
  match tree.read place with
  | .error e => .error (.unreadable e)
  | .ok text => (ofText text).map fun c => { c with path := some path }

/-- The name of the settings file that is looked for when none is named. -/
def fileName : RawText := "miv.toml"

/-- The settings file in the directory `base` or in the nearest directory above that has
one. -/
def discover? (tree : FileTree) (base : Place) : Option Place :=
  ((List.range (base.length + 1)).reverse.map fun n => base.take n ++ [fileName]).find? fun place =>
    tree.isDirectory place || (tree.file? place).isSome

/-- Reads the named settings file, or else the one that is found, or else none; applies
the overrides and resolves what has come out. -/
def load (tree : FileTree) (base : Place) (named : Option RawText) (overrides : Overrides) :
    Except ConfigurationError Configuration := do
  let c ← match named with
    | some path =>
      match tree.locate? base path with
      | some place => ofFile tree path place
      | none => .error (.notFound path)
    | none =>
      match discover? tree base with
      | some place => ofFile tree (Path.ofNames place) place
      | none => .ok {}
  resolved { c with settings := overrides.apply c.settings }

/-- The language of a file, by the extension of its name, if that is text.  A configured
extension goes before those that a language has by itself. -/
def languageOf? (c : Configuration) (path : RawText) : Option Language := do
  let ext ← Path.extension? path
  let key := normalizeExtension (← ext.toString?)
  match c.languages.lookup key with
  | some language => some language
  | none => Language.ofExtension? key

/-- Whether a glob matches a path.  Globs match nothing but text. -/
def isExcluded (c : Configuration) (path : RawText) : Bool :=
  match path.toString? with
  | some text => c.globs.any (·.isMatch text.toList)
  | none => false

end Configuration

end Marginalia
