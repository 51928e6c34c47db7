import Marginalia.Toml.Document
/-!
# Settings

What a settings file may say, with the values that hold where it says nothing.  Entries
that it does not know are passed over; a known entry of the wrong type makes the file
invalid, and so does a number without a value in what is read or passed over.
-/
namespace Marginalia

structure Settings where
  /-- Globs of paths to leave out, relative to the directory that is scanned. -/
  exclude : List String := []
  /-- Whether to go into hidden files and directories. -/
  hidden : Bool := false
  /-- Whether to leave out what `.gitignore` files name. -/
  respectGitignore : Bool := true
  /-- Extensions and the identifiers of their languages, each extension once. -/
  extensions : List (String × String) := []
deriving DecidableEq, Repr, Inhabited

/-- Sets the value of a key, at its old place if it has one. -/
def putEntry {α : Type} (key : String) (value : α) : List (String × α) → List (String × α)
  | [] => [(key, value)]
  | (k, v) :: entries =>
    if k == key then (key, value) :: entries else (k, v) :: putEntry key value entries

namespace Settings

/-- The value of an optional entry: `default` if it is missing, nothing if it is wrong. -/
def entry? {α : Type} (entries : List (String × Toml)) (key : String) (read : Toml → Option α)
    (default : α) : Option α :=
  match entries.lookup key with
  | none => some default
  | some value => read value

def ofTable? (document : List (String × Toml)) : Option Settings := do
  let document ← Toml.record? ["scan", "languages"] (.table document)
  let scan ← entry? document "scan" (Toml.record? ["exclude", "hidden", "respect_gitignore"]) []
  let languages ← entry? document "languages" (Toml.record? ["extensions"]) []
  let extensions ← entry? languages "extensions" Toml.entries? []
  return {
    exclude := ← entry? scan "exclude" Toml.strings? []
    hidden := ← entry? scan "hidden" Toml.bool? false
    respectGitignore := ← entry? scan "respect_gitignore" Toml.bool? true
    extensions := ← extensions.mapM fun (ext, id) => id.string?.map (ext, ·) }

def ofText? (text : String) : Option Settings := (Toml.parse? text).bind ofTable?

end Settings

/-- Settings given on the command line: they go before those of a file, and their
globs are added to the file's. -/
structure Overrides where
  hidden : Option Bool := none
  respectGitignore : Option Bool := none
  exclude : List String := []
deriving DecidableEq, Repr, Inhabited

def Overrides.apply (overrides : Overrides) (settings : Settings) : Settings :=
  { settings with
    hidden := overrides.hidden.getD settings.hidden
    respectGitignore := overrides.respectGitignore.getD settings.respectGitignore
    exclude := settings.exclude ++ overrides.exclude }

end Marginalia
