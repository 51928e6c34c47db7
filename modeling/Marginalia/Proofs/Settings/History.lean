import Marginalia.Proofs.Settings.Tables
import Marginalia.Settings.Session
/-!
# What look-ups answer by in the course of a session

The tables of a configuration belong to its past: they were made from the settings as they stood at some earlier step,
and the settings may have changed since.  `InForce` says of which step, in terms of the events of the session alone: the
last one that made the table, unless the configuration was replaced behind it.  One step either makes a table from the
settings that it leaves, or empties it with a new configuration, or keeps it (`Event.globs_cases`,
`Event.languages_cases`); that is all that is needed to follow a table through a session (`exists_inForce`).
-/
namespace Marginalia

namespace Configuration

/-! ## Steps that make tables -/

theorem bind_eq_ok {ε α β : Type} {x : Except ε α} {f : α → Except ε β} {b : β} (h : x >>= f = .ok b) :
    ∃ a, x = .ok a ∧ f a = .ok b := by
  cases x with
  | error e => cases h
  | ok a => exact ⟨a, rfl, h⟩

/-- What `resolve` can do: make both tables, or fail before the first one or between them. -/
theorem resolve_cases (c : Configuration) :
    (∃ globs languages, c.settings.exclude.mapM compileExclude = .ok globs ∧
      compileExtensions c.settings.extensions = .ok languages ∧ c.resolve = ({ c with globs, languages }, .ok ())) ∨
    (∃ e, c.settings.exclude.mapM compileExclude = .error e ∧ c.resolve = (c, .error e)) ∨
    ∃ globs e, c.settings.exclude.mapM compileExclude = .ok globs ∧
      compileExtensions c.settings.extensions = .error e ∧ c.resolve = ({ c with globs }, .error e) := by
  unfold resolve
  cases hglobs : c.settings.exclude.mapM compileExclude with
  | error e => exact Or.inr (Or.inl ⟨e, rfl, rfl⟩)
  | ok globs =>
    cases hlanguages : compileExtensions c.settings.extensions with
    | error e => exact Or.inr (Or.inr ⟨globs, e, rfl, rfl, rfl⟩)
    | ok languages => exact Or.inl ⟨globs, languages, rfl, rfl, rfl⟩

/-- The settings that the settings file of a tree holds: the named one, or else the one that is found, or else none. -/
def FileSettings (tree : FileTree) (base : Place) (named : Option RawText) (file : Settings) : Prop :=
  (∃ place text, named.elim (discover? tree base) (tree.locate? base) = some place ∧ tree.read place = .ok text ∧
    Settings.ofText? text = some file) ∨
  named = none ∧ discover? tree base = none ∧ file = {}

/-- What a configuration is that was loaded: the settings of a file under the overrides, with both tables made. -/
structure Loaded (tree : FileTree) (base : Place) (named : Option RawText) (overrides : Overrides) (c : Configuration) :
    Prop where
  settings : ∃ file, FileSettings tree base named file ∧ c.settings = overrides.apply file
  globs : c.settings.exclude.mapM compileExclude = .ok c.globs
  languages : compileExtensions c.settings.extensions = .ok c.languages

theorem resolved_eq_ok {c c' : Configuration} (h : c.resolved = .ok c') :
    c'.settings = c.settings ∧ c'.settings.exclude.mapM compileExclude = .ok c'.globs ∧
      compileExtensions c'.settings.extensions = .ok c'.languages := by
  unfold resolved at h
  rcases c.resolve_cases with ⟨globs, languages, hglobs, hlanguages, hc⟩ | ⟨e, -, hc⟩ | ⟨globs, e, -, -, hc⟩
  · rw [hc] at h
    obtain rfl := Except.ok.inj h
    exact ⟨rfl, hglobs, hlanguages⟩
  · rw [hc] at h
    cases h
  · rw [hc] at h
    cases h

theorem ofText_eq_ok {text : String} {c : Configuration} (h : ofText text = .ok c) :
    ∃ file, Settings.ofText? text = some file ∧ c = { settings := file } := by
  unfold ofText at h
  split at h
  · rename_i file hfile
    exact ⟨file, hfile, (Except.ok.inj h).symm⟩
  · cases h

theorem ofFile_eq_ok {tree : FileTree} {path : RawText} {place : Place} {c : Configuration}
    (h : ofFile tree path place = .ok c) : ∃ text file, tree.read place = .ok text ∧ Settings.ofText? text = some file ∧
      c = { settings := file, path := some path } := by
  unfold ofFile at h
  split at h
  · cases h
  · rename_i text htext
    cases hc : ofText text with
    | error e =>
      rw [hc] at h
      cases h
    | ok read =>
      rw [hc] at h
      obtain ⟨file, hfile, rfl⟩ := ofText_eq_ok hc
      exact ⟨text, file, htext, hfile, (Except.ok.inj h).symm⟩

theorem loaded_of_resolved {tree : FileTree} {base : Place} {named : Option RawText} {overrides : Overrides}
    {read c : Configuration} (hread : FileSettings tree base named read.settings)
    (h : resolved { read with settings := overrides.apply read.settings } = .ok c) : Loaded tree base named overrides c := by
  obtain ⟨hsettings, hglobs, hlanguages⟩ := resolved_eq_ok h
  exact ⟨⟨read.settings, hread, hsettings⟩, hglobs, hlanguages⟩

theorem loaded_of_file {tree : FileTree} {base place : Place} {named : Option RawText} {overrides : Overrides}
    {path : RawText} {c : Configuration} (hplace : named.elim (discover? tree base) (tree.locate? base) = some place)
    (h : ((ofFile tree path place) >>= fun read => resolved { read with settings := overrides.apply read.settings }) = .ok c) :
    Loaded tree base named overrides c := by
  obtain ⟨read, hread, h⟩ := bind_eq_ok h
  obtain ⟨text, file, htext, hfile, rfl⟩ := ofFile_eq_ok hread
  exact loaded_of_resolved (Or.inl ⟨place, text, hplace, htext, hfile⟩) h

theorem load_eq_ok {tree : FileTree} {base : Place} {named : Option RawText} {overrides : Overrides} {c : Configuration}
    (h : load tree base named overrides = .ok c) : Loaded tree base named overrides c := by
  unfold load at h
  cases named with
  | some path =>
    cases hplace : tree.locate? base path with
    | none =>
      simp only [hplace] at h
      cases h
    | some place =>
      simp only [hplace] at h
      exact loaded_of_file hplace h
  | none =>
    cases hplace : discover? tree base with
    | none =>
      simp only [hplace] at h
      obtain ⟨read, hread, h⟩ := bind_eq_ok h
      obtain rfl := Except.ok.inj hread
      exact loaded_of_resolved (Or.inr ⟨rfl, hplace, rfl⟩) h
    | some place =>
      simp only [hplace] at h
      exact loaded_of_file hplace h

theorem step_read (c : Configuration) (text : String) :
    (∃ file, Settings.ofText? text = some file ∧ c.step (.read text) = ({ settings := file }, none)) ∨
      ∃ e, c.step (.read text) = (c, some e) := by
  unfold step
  dsimp only
  cases hread : ofText text with
  | error e => exact Or.inr ⟨e, rfl⟩
  | ok read =>
    obtain ⟨file, hfile, rfl⟩ := ofText_eq_ok hread
    exact Or.inl ⟨file, hfile, rfl⟩

theorem step_loadFrom (c : Configuration) (tree : FileTree) (base : Place) (named : Option RawText) (overrides : Overrides) :
    (∃ loaded, Loaded tree base named overrides loaded ∧ c.step (.loadFrom tree base named overrides) = (loaded, none)) ∨
      ∃ e, c.step (.loadFrom tree base named overrides) = (c, some e) := by
  unfold step
  dsimp only
  cases hload : load tree base named overrides with
  | error e => exact Or.inr ⟨e, rfl⟩
  | ok loaded => exact Or.inl ⟨loaded, load_eq_ok hload, rfl⟩

/-- The tree in which a settings file with the given content stands alone. -/
def treeOf (content : Option ByteArray) : FileTree := ⟨(content.map ([fileName], ·)).toList, []⟩

theorem step_load (c : Configuration) (content : Option ByteArray) (overrides : Overrides) :
    c.step (.load content overrides) = c.step (.loadFrom (treeOf content) [] (some fileName) overrides) := rfl

theorem fileSettings_treeOf {content : Option ByteArray} {file : Settings}
    (h : FileSettings (treeOf content) [] (some fileName) file) :
    ∃ bytes text, content = some bytes ∧ String.fromUTF8? bytes = some text ∧ Settings.ofText? text = some file := by
  have hpieces : Path.pieces fileName = [fileName] := by decide
  have hname : fileName ≠ [] ∧ fileName ≠ [Path.dot] ∧ fileName ≠ [Path.dot, Path.dot] := by decide
  rcases h with ⟨place, text, hplace, htext, hfile⟩ | ⟨hnamed, -⟩
  · cases content with
    | none =>
      have hnone : (treeOf none).locate? [] fileName = none := by decide
      rw [Option.elim_some, hnone] at hplace
      cases hplace
    | some bytes =>
      have hsome : (treeOf (some bytes)).locate? [] fileName = some [fileName] := by
        simp [treeOf, FileTree.locate?, FileTree.follow?, FileTree.isDirectory, FileTree.file?, hpieces, hname]
      rw [Option.elim_some, hsome] at hplace
      obtain rfl := Option.some.inj hplace
      refine ⟨bytes, text, rfl, ?_, hfile⟩
      have hbytes : (treeOf (some bytes)).file? [fileName] = some bytes := by simp [treeOf, FileTree.file?]
      unfold FileTree.read at htext
      rw [hbytes] at htext
      dsimp only at htext
      cases hdecode : String.fromUTF8? bytes with
      | none =>
        rw [hdecode] at htext
        cases htext
      | some decoded =>
        rw [hdecode] at htext
        obtain rfl := Except.ok.inj htext
        rfl
  · cases hnamed

theorem step_resolve (c : Configuration) :
    (∃ globs languages, c.settings.exclude.mapM compileExclude = .ok globs ∧
      compileExtensions c.settings.extensions = .ok languages ∧
      c.step .resolve = ({ c with globs, languages }, none)) ∨
    (∃ e, c.settings.exclude.mapM compileExclude = .error e ∧ c.step .resolve = (c, some e)) ∨
    ∃ globs e, c.settings.exclude.mapM compileExclude = .ok globs ∧
      compileExtensions c.settings.extensions = .error e ∧ c.step .resolve = ({ c with globs }, some e) := by
  unfold step
  dsimp only
  rcases c.resolve_cases with ⟨globs, languages, hglobs, hlanguages, hc⟩ | ⟨e, hglobs, hc⟩ | ⟨globs, e, hglobs, hlanguages, hc⟩
  · exact Or.inl ⟨globs, languages, hglobs, hlanguages, by rw [hc]⟩
  · exact Or.inr (Or.inl ⟨e, hglobs, by rw [hc]⟩)
  · exact Or.inr (Or.inr ⟨globs, e, hglobs, hlanguages, by rw [hc]⟩)

/-! ## Events -/

/-- Whether a step puts another configuration in the place of the old one if it succeeds. -/
def Step.replaces : Step → Bool
  | reset | read _ | load _ _ | loadFrom _ _ _ _ => true
  | resolve | setExclude _ | setExtension _ _ | removeExtension _ => false

/-- Whether a step makes both tables if it succeeds. -/
def Step.compiles : Step → Bool
  | load _ _ | loadFrom _ _ _ _ | resolve => true
  | reset | read _ | setExclude _ | setExtension _ _ | removeExtension _ => false

/-- A step that was taken, and the configuration before it. -/
structure Event where
  before : Configuration
  step : Step

namespace Event

def after (e : Event) : Configuration := (e.before.step e.step).1

def error? (e : Event) : Option ConfigurationError := (e.before.step e.step).2

/-- The configuration was replaced. -/
def Replaces (e : Event) : Prop := e.step.replaces = true ∧ e.error? = none

/-- A load or a resolve succeeded. -/
def Compiles (e : Event) : Prop := e.step.compiles = true ∧ e.error? = none

/-- A load succeeded, or a resolve got the excludes compiled, whether or not it then failed.  A load that fails leaves
no configuration whose excludes it could have compiled. -/
def CompilesExclude (e : Event) : Prop :=
  e.Compiles ∨ e.step = .resolve ∧ ∀ pattern ∈ e.before.settings.exclude, ∃ glob, compileExclude pattern = .ok glob

/-- What an event does to the tables. -/
inductive Effect (e : Event) : Prop
  | empties : e.Replaces → ¬ e.CompilesExclude → e.after.globs = [] → e.after.languages = [] → Effect e
  | makes : e.Compiles → e.after.settings.exclude.mapM compileExclude = .ok e.after.globs →
      compileExtensions e.after.settings.extensions = .ok e.after.languages → Effect e
  | makesGlobs : ¬ e.Replaces → e.CompilesExclude → ¬ e.Compiles →
      e.after.settings.exclude.mapM compileExclude = .ok e.after.globs → e.after.languages = e.before.languages → Effect e
  | keeps : ¬ e.Replaces → ¬ e.CompilesExclude → e.after.globs = e.before.globs →
      e.after.languages = e.before.languages → Effect e

/-- A step that changes settings only, or none. -/
theorem effect_of_neither {c : Configuration} {s : Step} (hreplaces : s.replaces = false) (hcompiles : s.compiles = false)
    (hglobs : (c.step s).1.globs = c.globs) (hlanguages : (c.step s).1.languages = c.languages) : Effect ⟨c, s⟩ := by
  refine .keeps (fun h => ?_) (fun h => ?_) hglobs hlanguages
  · exact Bool.false_ne_true (hreplaces.symm.trans h.1)
  · rcases h with h | ⟨rfl, -⟩
    · exact Bool.false_ne_true (hcompiles.symm.trans h.1)
    · cases hcompiles

/-- A step that fails as a whole. -/
theorem effect_of_error {c : Configuration} {s : Step} {e : ConfigurationError} (h : c.step s = (c, some e))
    (hexclude : s = .resolve → ∃ pattern ∈ c.settings.exclude, ∀ glob, compileExclude pattern ≠ .ok glob) :
    Effect ⟨c, s⟩ := by
  have herror : error? ⟨c, s⟩ = some e := congrArg Prod.snd h
  have hafter : after ⟨c, s⟩ = c := congrArg Prod.fst h
  refine .keeps (fun hr => ?_) (fun hc => ?_) (by rw [hafter]) (by rw [hafter])
  · cases herror.symm.trans hr.2
  · rcases hc with hc | ⟨hstep, hall⟩
    · cases herror.symm.trans hc.2
    · obtain ⟨pattern, hpattern, hbad⟩ := hexclude hstep
      obtain ⟨glob, hglob⟩ := hall pattern hpattern
      exact hbad glob hglob

theorem effect_of_load {c : Configuration} {s : Step} {tree : FileTree} {base : Place} {named : Option RawText}
    {overrides : Overrides} (hcompiles : s.compiles = true) (hresolve : s ≠ .resolve)
    (h : (∃ loaded, Loaded tree base named overrides loaded ∧ c.step s = (loaded, none)) ∨ ∃ e, c.step s = (c, some e)) :
    Effect ⟨c, s⟩ := by
  rcases h with ⟨loaded, hloaded, hstep⟩ | ⟨e, hstep⟩
  · have hafter : after ⟨c, s⟩ = loaded := congrArg Prod.fst hstep
    refine .makes ⟨hcompiles, congrArg Prod.snd hstep⟩ ?_ ?_
    · rw [hafter]
      exact hloaded.globs
    · rw [hafter]
      exact hloaded.languages
  · exact effect_of_error hstep fun h => absurd h hresolve

theorem effect_resolve (c : Configuration) : Effect ⟨c, .resolve⟩ := by
  have hreplaces : ¬ Replaces ⟨c, .resolve⟩ := fun h => Bool.false_ne_true h.1
  rcases c.step_resolve with ⟨globs, languages, hglobs, hlanguages, hstep⟩ | ⟨e, hglobs, hstep⟩ |
    ⟨globs, e, hglobs, hlanguages, hstep⟩
  · have hafter : after ⟨c, .resolve⟩ = { c with globs, languages } := congrArg Prod.fst hstep
    refine .makes ⟨rfl, congrArg Prod.snd hstep⟩ ?_ ?_
    · rw [hafter]
      exact hglobs
    · rw [hafter]
      exact hlanguages
  · exact effect_of_error hstep fun _ => mapM_eq_error_iff.1 ⟨e, hglobs⟩
  · have hafter : after ⟨c, .resolve⟩ = { c with globs } := congrArg Prod.fst hstep
    have herror : error? ⟨c, .resolve⟩ = some e := congrArg Prod.snd hstep
    refine .makesGlobs hreplaces (Or.inr ⟨rfl, fun pattern hpattern => ?_⟩) (fun h => ?_) ?_ ?_
    · obtain ⟨glob, -, hglob⟩ := (mem_of_forall₂ (mapM_eq_ok_iff.1 hglobs)).1 pattern hpattern
      exact ⟨glob, hglob⟩
    · cases herror.symm.trans h.2
    · rw [hafter]
      exact hglobs
    · rw [hafter]

/-- **Every event empties the tables with a new configuration, makes one or both of them, or keeps both.** -/
theorem effect : ∀ e : Event, e.Effect
  | ⟨c, .reset⟩ => .empties ⟨rfl, rfl⟩ (fun h => by rcases h with ⟨h, -⟩ | ⟨h, -⟩ <;> cases h) rfl rfl
  | ⟨c, .read text⟩ => by
    rcases c.step_read text with ⟨file, -, hstep⟩ | ⟨e, hstep⟩
    · have hafter : after ⟨c, .read text⟩ = { settings := file } := congrArg Prod.fst hstep
      refine .empties ⟨rfl, congrArg Prod.snd hstep⟩ (fun h => ?_) ?_ ?_
      · rcases h with ⟨h, -⟩ | ⟨h, -⟩ <;> cases h
      · rw [hafter]
      · rw [hafter]
    · exact effect_of_error hstep fun h => by cases h
  | ⟨c, .load content overrides⟩ => by
    have hstep := c.step_loadFrom (treeOf content) [] (some fileName) overrides
    rw [← step_load] at hstep
    exact effect_of_load rfl Step.noConfusion hstep
  | ⟨c, .loadFrom tree base named overrides⟩ =>
    effect_of_load rfl Step.noConfusion (c.step_loadFrom tree base named overrides)
  | ⟨c, .resolve⟩ => effect_resolve c
  | ⟨c, .setExclude patterns⟩ => effect_of_neither rfl rfl rfl rfl
  | ⟨c, .setExtension ext id⟩ => effect_of_neither rfl rfl rfl rfl
  | ⟨c, .removeExtension ext⟩ => effect_of_neither rfl rfl rfl rfl

theorem globs_cases (e : Event) :
    (e.CompilesExclude ∧ e.after.settings.exclude.mapM compileExclude = .ok e.after.globs) ∨
      ¬ e.CompilesExclude ∧ (e.Replaces ∧ e.after.globs = [] ∨ ¬ e.Replaces ∧ e.after.globs = e.before.globs) := by
  cases e.effect with
  | empties hreplaces hnot hglobs _ => exact Or.inr ⟨hnot, Or.inl ⟨hreplaces, hglobs⟩⟩
  | makes hcompiles hglobs _ => exact Or.inl ⟨Or.inl hcompiles, hglobs⟩
  | makesGlobs _ hcompiles _ hglobs _ => exact Or.inl ⟨hcompiles, hglobs⟩
  | keeps hreplaces hnot hglobs _ => exact Or.inr ⟨hnot, Or.inr ⟨hreplaces, hglobs⟩⟩

theorem languages_cases (e : Event) :
    (e.Compiles ∧ compileExtensions e.after.settings.extensions = .ok e.after.languages) ∨
      ¬ e.Compiles ∧ (e.Replaces ∧ e.after.languages = [] ∨ ¬ e.Replaces ∧ e.after.languages = e.before.languages) := by
  cases e.effect with
  | empties hreplaces hnot _ hlanguages => exact Or.inr ⟨fun h => hnot (Or.inl h), Or.inl ⟨hreplaces, hlanguages⟩⟩
  | makes hcompiles _ hlanguages => exact Or.inl ⟨hcompiles, hlanguages⟩
  | makesGlobs hreplaces _ hnot _ hlanguages => exact Or.inr ⟨hnot, Or.inr ⟨hreplaces, hlanguages⟩⟩
  | keeps hreplaces hnot _ hlanguages => exact Or.inr ⟨fun h => hnot (Or.inl h), Or.inr ⟨hreplaces, hlanguages⟩⟩

end Event

/-! ## Sessions -/

/-- The configuration after some steps. -/
def run (c : Configuration) (steps : List Step) : Configuration := steps.foldl (fun c s => (c.step s).1) c

/-- The events of some steps, in their order. -/
def history : Configuration → List Step → List Event
  | _, [] => []
  | c, s :: steps => ⟨c, s⟩ :: history (c.step s).1 steps

theorem run_concat (c : Configuration) (steps : List Step) (s : Step) :
    run c (steps ++ [s]) = Event.after ⟨run c steps, s⟩ := by
  unfold run
  rw [List.foldl_append]
  rfl

theorem history_concat : ∀ (c : Configuration) (steps : List Step) (s : Step),
    history c (steps ++ [s]) = history c steps ++ [⟨run c steps, s⟩]
  | _, [], _ => rfl
  | c, first :: steps, s => by
    rw [List.cons_append, history, history_concat (c.step first).1 steps s]
    rfl

/-- The value that `view` has behind the last event of a history with the property `p`, if the configuration was not
replaced since; and an empty one if there is no such event. -/
def InForce {α : Type} (p : Event → Prop) (view : Configuration → List α) (history : List Event) (value : List α) : Prop :=
  (∃ earlier e later, history = earlier ++ e :: later ∧ p e ∧ (∀ x ∈ later, ¬ p x ∧ ¬ x.Replaces) ∧ value = view e.after) ∨
    (∀ earlier e later, history = earlier ++ e :: later → p e → ∃ x ∈ later, x.Replaces) ∧ value = []

section InForce

variable {α : Type} {p : Event → Prop} {view : Configuration → List α} {events : List Event} {e : Event}

theorem inForce_of_event (h : p e) : InForce p view (events ++ [e]) (view e.after) :=
  Or.inl ⟨events, e, [], rfl, h, by simp, rfl⟩

/-- A history that ends with one event more is cut at that event or before it. -/
theorem concat_eq_append_cons {earlier later : List Event} {x : Event} (h : events ++ [e] = earlier ++ x :: later) :
    x = e ∧ later = [] ∨ ∃ init, later = init ++ [e] ∧ events = earlier ++ x :: init := by
  rcases List.eq_nil_or_concat later with rfl | ⟨init, y, rfl⟩
  · obtain ⟨-, hlast⟩ := List.append_inj' h rfl
    exact Or.inl ⟨(List.cons.inj hlast).1.symm, rfl⟩
  · rw [List.concat_eq_append, ← List.cons_append, ← List.append_assoc] at h
    obtain ⟨hevents, hlast⟩ := List.append_inj' h rfl
    obtain rfl := (List.cons.inj hlast).1
    exact Or.inr ⟨init, List.concat_eq_append .., hevents⟩

theorem inForce_of_replaces (hnot : ¬ p e) (hreplaces : e.Replaces) : InForce p view (events ++ [e]) [] := by
  refine Or.inr ⟨fun earlier x later h hx => ?_, rfl⟩
  rcases concat_eq_append_cons h with ⟨rfl, -⟩ | ⟨init, rfl, -⟩
  · exact absurd hx hnot
  · exact ⟨e, by simp, hreplaces⟩

theorem InForce.concat {value : List α} (h : InForce p view events value) (hnot : ¬ p e) (hreplaces : ¬ e.Replaces) :
    InForce p view (events ++ [e]) value := by
  rcases h with ⟨earlier, x, later, rfl, hx, hlater, hvalue⟩ | ⟨hnone, hvalue⟩
  · refine Or.inl ⟨earlier, x, later ++ [e], by simp, hx, fun y hy => ?_, hvalue⟩
    rcases List.mem_append.1 hy with hy | hy
    · exact hlater y hy
    · rw [List.mem_singleton.1 hy]
      exact ⟨hnot, hreplaces⟩
  · refine Or.inr ⟨fun earlier x later h hx => ?_, hvalue⟩
    rcases concat_eq_append_cons h with ⟨rfl, -⟩ | ⟨init, rfl, hevents⟩
    · exact absurd hx hnot
    · obtain ⟨y, hy, hyreplaces⟩ := hnone earlier x init hevents hx
      exact ⟨y, List.mem_append_left _ hy, hyreplaces⟩

/-- **A table holds what was in force when it was made**, if every event makes it, empties it with a new configuration
or keeps it. -/
theorem exists_inForce {β : Type} {table : Configuration → List β} {Made : List α → List β → Prop} (hempty : Made [] [])
    (hdefault : table {} = [])
    (hevent : ∀ e : Event, p e ∧ Made (view e.after) (table e.after) ∨
      ¬ p e ∧ (e.Replaces ∧ table e.after = [] ∨ ¬ e.Replaces ∧ table e.after = table e.before)) (steps : List Step) :
    ∃ value, InForce p view (history {} steps) value ∧ Made value (table (run {} steps)) := by
  induction steps using List.reverseRecOn with
  | nil =>
    refine ⟨[], Or.inr ⟨fun earlier e later h => ?_, rfl⟩, ?_⟩
    · simp [history] at h
    · rw [run, List.foldl_nil, hdefault]
      exact hempty
  | append_singleton steps s ih =>
    obtain ⟨value, hvalue, hmade⟩ := ih
    rw [history_concat, run_concat]
    rcases hevent ⟨run {} steps, s⟩ with ⟨hp, hmade⟩ | ⟨hnot, ⟨hreplaces, htable⟩ | ⟨hreplaces, htable⟩⟩
    · exact ⟨_, inForce_of_event hp, hmade⟩
    · exact ⟨[], inForce_of_replaces hnot hreplaces, htable ▸ hempty⟩
    · refine ⟨value, hvalue.concat hnot hreplaces, ?_⟩
      rw [htable]
      exact hmade

end InForce

/-! ## Steps that fail, and loads -/

theorem step_resolve_of_bad_exclude {c : Configuration}
    (h : ∃ pattern ∈ c.settings.exclude, ∀ glob, compileExclude pattern ≠ .ok glob) : ∃ e, c.step .resolve = (c, some e) := by
  obtain ⟨e, he⟩ := mapM_eq_error_iff.2 h
  rcases c.step_resolve with ⟨globs, languages, hglobs, -⟩ | ⟨e, -, hstep⟩ | ⟨globs, e, hglobs, -⟩
  · cases he.symm.trans hglobs
  · exact ⟨e, hstep⟩
  · cases he.symm.trans hglobs

theorem step_resolve_of_bad_extension {c : Configuration}
    (hexclude : ∀ pattern ∈ c.settings.exclude, ∃ glob, compileExclude pattern = .ok glob)
    (h : ∃ entry ∈ c.settings.extensions, ∀ pair, compileExtension entry.1 entry.2 ≠ .ok pair) :
    ∃ globs e, c.settings.exclude.mapM compileExclude = .ok globs ∧ c.step .resolve = ({ c with globs }, some e) := by
  obtain ⟨e, he⟩ := compileExtensions_eq_error_iff.2 h
  rcases c.step_resolve with ⟨globs, languages, -, hlanguages, -⟩ | ⟨e, herror, -⟩ | ⟨globs, e, hglobs, -, hstep⟩
  · cases he.symm.trans hlanguages
  · obtain ⟨pattern, hpattern, hbad⟩ := mapM_eq_error_iff.1 ⟨e, herror⟩
    obtain ⟨glob, hglob⟩ := hexclude pattern hpattern
    exact absurd hglob (hbad glob)
  · exact ⟨globs, e, hglobs, hstep⟩

/-- What the settings of a loaded configuration are: those of the command line go before those of the file, and its
globs are added. -/
def Overridden (overrides : Overrides) (file settings : Settings) : Prop :=
  settings.hidden = overrides.hidden.getD file.hidden ∧
    settings.respectGitignore = overrides.respectGitignore.getD file.respectGitignore ∧
    settings.exclude = file.exclude ++ overrides.exclude ∧ settings.extensions = file.extensions

theorem overridden_apply (overrides : Overrides) (file : Settings) : Overridden overrides file (overrides.apply file) :=
  ⟨rfl, rfl, rfl, rfl⟩

/-- A load fails and changes nothing, or brings the settings of a file under the overrides. -/
theorem step_loadFrom_overridden (c : Configuration) (tree : FileTree) (base : Place) (named : Option RawText)
    (overrides : Overrides) :
    (∃ e, c.step (.loadFrom tree base named overrides) = (c, some e)) ∨
      ∃ loaded file, c.step (.loadFrom tree base named overrides) = (loaded, none) ∧
        FileSettings tree base named file ∧ Overridden overrides file loaded.settings := by
  rcases c.step_loadFrom tree base named overrides with ⟨loaded, hloaded, hstep⟩ | hfailed
  · obtain ⟨file, hfile, hsettings⟩ := hloaded.settings
    exact Or.inr ⟨loaded, file, hstep, hfile, hsettings ▸ overridden_apply overrides file⟩
  · exact Or.inl hfailed

/-- **What look-ups answer by after any steps**, whichever of them fail.  Excluded paths are those that the patterns in
force match: the patterns as they stood at the last load or resolve that got them compiled since the configuration was
replaced.  Languages are looked up in the entries in force: those at the last load or resolve that succeeded since then.
A resolve that fails changes no table or only that of the excludes, and a load that fails changes nothing; one that
succeeds brings the settings of the file under those of the command line. -/
theorem lookups_inForce (steps : List Step) :
    (∃ patterns, InForce Event.CompilesExclude (·.settings.exclude) (history {} steps) patterns ∧
      patterns.mapM compileExclude = .ok (run {} steps).globs ∧
      ∀ path : RawText, (run {} steps).isExcluded path = true ↔ ∃ text, path.toString? = some text ∧
        ∃ pattern ∈ patterns, ∃ glob, compileExclude pattern = .ok glob ∧ glob.isMatch text.toList = true) ∧
    (∃ entries, InForce Event.Compiles (·.settings.extensions) (history {} steps) entries ∧
      compileExtensions entries = .ok (run {} steps).languages ∧
      ∀ path, Answers entries path ((run {} steps).languageOf? path)) ∧
    ∀ c : Configuration,
      ((∃ pattern ∈ c.settings.exclude, ∀ glob, compileExclude pattern ≠ .ok glob) →
        ∃ e, c.step .resolve = (c, some e)) ∧
      ((∀ pattern ∈ c.settings.exclude, ∃ glob, compileExclude pattern = .ok glob) →
        (∃ entry ∈ c.settings.extensions, ∀ pair, compileExtension entry.1 entry.2 ≠ .ok pair) →
        ∃ globs e, c.settings.exclude.mapM compileExclude = .ok globs ∧ c.step .resolve = ({ c with globs }, some e)) ∧
      (∀ content overrides, (∃ e, c.step (.load content overrides) = (c, some e)) ∨
        ∃ loaded bytes text file, c.step (.load content overrides) = (loaded, none) ∧ content = some bytes ∧
          String.fromUTF8? bytes = some text ∧ Settings.ofText? text = some file ∧
          Overridden overrides file loaded.settings) ∧
      ∀ tree base named overrides, (∃ e, c.step (.loadFrom tree base named overrides) = (c, some e)) ∨
        ∃ loaded file, c.step (.loadFrom tree base named overrides) = (loaded, none) ∧
          FileSettings tree base named file ∧ Overridden overrides file loaded.settings := by
  refine ⟨?_, ?_, fun c => ⟨step_resolve_of_bad_exclude, step_resolve_of_bad_extension, fun content overrides => ?_,
    c.step_loadFrom_overridden⟩⟩
  · obtain ⟨patterns, hforce, hglobs⟩ := @exists_inForce String Event.CompilesExclude (·.settings.exclude) Glob
      Configuration.globs (fun patterns globs => patterns.mapM compileExclude = .ok globs) rfl rfl Event.globs_cases steps
    exact ⟨patterns, hforce, hglobs, isExcluded_iff hglobs⟩
  · obtain ⟨entries, hforce, hlanguages⟩ := @exists_inForce (String × String) Event.Compiles (·.settings.extensions)
      (String × Language) Configuration.languages (fun entries languages => compileExtensions entries = .ok languages)
      rfl rfl Event.languages_cases steps
    exact ⟨entries, hforce, hlanguages, answers_languageOf? hlanguages⟩
  · rw [step_load]
    rcases c.step_loadFrom_overridden (treeOf content) [] (some fileName) overrides with
      hfailed | ⟨loaded, file, hstep, hfile, hoverridden⟩
    · exact Or.inl hfailed
    · obtain ⟨bytes, text, hbytes, htext, hread⟩ := fileSettings_treeOf hfile
      exact Or.inr ⟨loaded, bytes, text, file, hstep, hbytes, htext, hread, hoverridden⟩

/-- Excludes that do not compile leave the old ones in force, and so do extensions that do not compile. -/
example :
    let c := run {} [.setExclude ["*.lock"], .setExtension "es6" "javascript", .resolve,
      .setExclude ["out/*"], .setExtension "es6" "go", .setExtension "vue" "vue", .resolve,
      .removeExtension "vue", .setExclude ["docs", ""], .resolve]
    c.isExcluded "a.lock" = false ∧ c.isExcluded "out/b" = true ∧ c.isExcluded "docs" = false ∧
      c.languageOf? "c.es6" = some .javascript := by
  decide +kernel

end Configuration

end Marginalia
