import Marginalia.Settings.Configuration
/-!
# Sessions

A session changes one configuration step by step.  A step that fails reports why; what
it leaves behind is the old configuration, except that `resolve` may have made its first
table before it failed.
-/
namespace Marginalia

namespace Configuration

/-- A change to a configuration. -/
inductive Step
  /-- Back to the default configuration. -/
  | reset
  /-- Take the settings from a text, and leave the tables empty. -/
  | read (text : String)
  /-- Take the settings from a file with the given content, or from one that is missing;
  apply the overrides and resolve. -/
  | load (content : Option ByteArray) (overrides : Overrides)
  /-- Take the settings from the named file of a tree, seen from the directory `base`, or else
  from the one that is found there, or else the default ones; apply the overrides and resolve. -/
  | loadFrom (tree : FileTree) (base : Place) (named : Option RawText) (overrides : Overrides)
  | resolve
  | setExclude (patterns : List String)
  | setExtension (ext id : String)
  | removeExtension (ext : String)

/-- The configuration after a step, and why the step failed if it did. -/
def step (c : Configuration) : Step → Configuration × Option ConfigurationError
  | .reset => ({}, none)
  | .read text =>
    match ofText text with
    | .ok c => (c, none)
    | .error e => (c, some e)
  | .load content overrides =>
    let tree : FileTree := ⟨(content.map ([fileName], ·)).toList, []⟩
    match Configuration.load tree [] (some fileName) overrides with
    | .ok c => (c, none)
    | .error e => (c, some e)
  | .loadFrom tree base named overrides =>
    match Configuration.load tree base named overrides with
    | .ok c => (c, none)
    | .error e => (c, some e)
  | .resolve =>
    match c.resolve with
    | (c, .ok ()) => (c, none)
    | (c, .error e) => (c, some e)
  | .setExclude patterns => ({ c with settings.exclude := patterns }, none)
  | .setExtension ext id =>
    ({ c with settings.extensions := putEntry ext id c.settings.extensions }, none)
  | .removeExtension ext =>
    ({ c with settings.extensions := c.settings.extensions.filter (·.1 != ext) }, none)

end Configuration

end Marginalia
