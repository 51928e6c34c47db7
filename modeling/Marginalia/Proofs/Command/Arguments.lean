import Mathlib.Data.List.Basic
import Marginalia.Command.Run
import Marginalia.Proofs.Text.Raw
/-!
# Plain command lines

A request can be given on a command line that reads back as that request.  A settings file stands behind `--config=` and
the operands stand behind `--`, so no name of a file is taken for an option (`plain`).  A line number is written in
digits.
-/
namespace Marginalia

namespace Argument

/-- A line number reads back from its digits. -/
theorem lineOfText_toString {n : Nat} (hpos : 1 ≤ n) (hmax : n ≤ maximumLine) : lineOfText (toString n) = .ok n := by
  have htext : (toString n).toList = Nat.toDigits 10 n := by
    rw [show toString n = n.repr from rfl, Nat.repr_eq_ofList_toDigits, String.toList_ofList]
  have hvalue : (Nat.toDigits 10 n).foldl (fun n c => 10 * n + (c.toNat - 48)) 0 = n :=
    Nat.ofDigitChars_toDigits (by decide) (by decide)
  have hdigit : ∀ c ∈ Nat.toDigits 10 n, c.isDigit = true := fun c hc =>
    Nat.isDigit_of_mem_toDigits (by decide) (by decide) hc
  have hne : Nat.toDigits 10 n ≠ [] := Nat.toDigits_ne_nil
  unfold lineOfText
  rw [htext]
  dsimp only
  split
  · rename_i t ht
    have := hdigit '+' (by rw [ht]; exact List.mem_cons_self)
    cases this
  · rw [hvalue, if_pos]
    simp only [Bool.and_eq_true, decide_eq_true_eq, List.all_eq_true, Bool.not_eq_true', List.isEmpty_eq_false_iff]
    exact ⟨⟨⟨hne, hdigit⟩, hpos⟩, hmax⟩

theorem text_ofString (s : String) : text (RawText.ofString s) = .ok s := by
  rw [text, RawText.toString?_ofString]

/-- The argument that writes a line number. -/
def digits (n : Nat) : RawText := RawText.ofString (toString n)

theorem line_digits {n : Nat} (hpos : 1 ≤ n) (hmax : n ≤ maximumLine) : line (digits n) = .ok n := by
  rw [line, digits, text_ofString]
  exact lineOfText_toString hpos hmax

/-- Arguments that give a settings file, if any, and operands. -/
def plain (config : Option RawText) (operands : List RawText) : List RawText :=
  (config.map (RawText.ofString "--config=" ++ ·)).toList ++ [dash, dash] :: operands

theorem readAll_operands (specs : List OptionSpec) (bound : Nat) (operands : List RawText) :
    readAll specs (bound + 1) ([dash, dash] :: operands) = .ok (operands.map .operand) := by
  cases bound <;> simp [readAll, pure, Except.pure, bind, Except.bind]

theorem readAll_long {specs : List OptionSpec} {b : UInt8} {t : RawText} {rest rest' : List RawText}
    {found : List Argument} (hread : readLong specs rest (b :: t) = .ok (found, rest'))
    (hhelp : found.contains .help = false) (bound : Nat) :
    readAll specs (bound + 1) ((dash :: dash :: b :: t) :: rest) = (readAll specs bound rest').map (found ++ ·) := by
  have hlooks : looksLikeOption (dash :: dash :: b :: t) = true := by simp [looksLikeOption]
  rw [readAll, if_neg (by simp), hlooks]
  show Except.bind (readLong specs rest (b :: t)) _ = _
  rw [hread]
  show (if found.contains .help = true then _ else _) = _
  rw [hhelp, if_neg Bool.false_ne_true]
  cases readAll specs bound rest' <;> rfl

/-- The options have a settings file among them. -/
def TakesConfig (specs : List OptionSpec) : Prop :=
  specs.find? (fun spec => RawText.ofString spec.long == RawText.ofString "config") = some Request.configSpec

theorem readLong_config {specs : List OptionSpec} (hspecs : TakesConfig specs) (rest : List RawText) (path : RawText) :
    readLong specs rest (RawText.ofString "config=" ++ path) = .ok ([.option "config" path], rest) := by
  have htext : RawText.ofString "config=" ++ path = RawText.ofString "config" ++ equals :: path := rfl
  have hequals : equals ∉ RawText.ofString "config" := mt (RawText.mem_ofString_iff (by decide)).1 (by decide)
  have hall : ∀ b ∈ RawText.ofString "config", (b != equals) = true := fun b hb =>
    bne_iff_ne.2 fun h => hequals (h ▸ hb)
  have hname : (RawText.ofString "config" ++ equals :: path).takeWhile (· != equals) = RawText.ofString "config" := by
    rw [List.takeWhile_append_of_pos hall]
    simp
  have hvalue : (RawText.ofString "config" ++ equals :: path).dropWhile (· != equals) = equals :: path := by
    rw [List.dropWhile_append_of_pos hall]
    simp
  unfold readLong
  rw [htext, hname, hvalue]
  dsimp only
  rw [hspecs]
  rfl

/-- What such arguments mean. -/
def understood (config : Option RawText) (operands : List RawText) : List Argument :=
  (config.map (.option "config")).toList ++ operands.map .operand

theorem read_plain {specs : List OptionSpec} (hspecs : TakesConfig specs) (config : Option RawText)
    (operands : List RawText) : read specs (plain config operands) = .ok (understood config operands) := by
  cases config with
  | none => exact readAll_operands ..
  | some path =>
    have hread := readLong_config hspecs ([dash, dash] :: operands) path
    refine (readAll_long hread (by simp) (operands.length + 1)).trans ?_
    rw [readAll_operands]
    rfl

section Understood

variable (config : Option RawText) (given : List RawText)

theorem operands_understood : operands (understood config given) = given := by
  cases config <;> simp [operands, understood, List.filterMap_map]

theorem help_not_mem_understood : (understood config given).contains .help = false := by
  cases config <;> simp [understood]

theorem flag?_understood (long : String) : flag? long (understood config given) = .ok false := by
  have hmem : Argument.flag long ∉ understood config given := by cases config <;> simp [understood]
  rw [flag?, List.count_eq_zero_of_not_mem hmem]
  rfl

theorem values_understood (long : String) :
    values long (understood config given) = if long = "config" then config.toList else [] := by
  by_cases hlong : long = "config"
  · cases config <;> simp [values, understood, hlong]
  · cases config <;> simp [values, understood, hlong, Ne.symm hlong]

theorem config?_understood {config : Option RawText} (hconfig : config ≠ some []) (given : List RawText) :
    config? (understood config given) = .ok config := by
  rw [config?, value?, values_understood, if_pos rfl]
  cases config with
  | none => rfl
  | some file =>
    show (path "config" file).bind (fun value => .ok (some value)) = _
    rw [path, if_neg fun h => hconfig (congrArg some h)]
    rfl

end Understood

end Argument

namespace Request

open Argument

/-- A file can be asked to be scanned. -/
theorem ofArguments_scan {config : Option RawText} (hconfig : config ≠ some []) {file : RawText} (hfile : file ≠ []) :
    ofArguments ("scan" :: plain config [file]) = .ok (.scan { roots := [file], config }) := by
  have hroots : [file].mapM (path "PATHS") = .ok [file] := by
    rw [List.mapM_cons, path, if_neg hfile]
    rfl
  have hspecs : TakesConfig scanSpecs := rfl
  show (read scanSpecs (plain config [file])).bind ofScan = _
  rw [read_plain hspecs]
  show ofScan (understood config [file]) = _
  unfold ofScan
  simp only [operands_understood, flag?_understood, config?_understood hconfig, values_understood,
    help_not_mem_understood, hroots]
  rfl

/-- Every line of a file can be asked for. -/
theorem ofArguments_at {config : Option RawText} (hconfig : config ≠ some []) {file : RawText} (hfile : file ≠ [])
    {n : Nat} (hpos : 1 ≤ n) (hmax : n ≤ maximumLine) :
    ofArguments ("at" :: plain config [file, digits n]) = .ok (.at { file, line := n, config }) := by
  have hpath : path "FILE" file = .ok file := if_neg hfile
  have hspecs : TakesConfig atSpecs := rfl
  show (read atSpecs (plain config [file, digits n])).bind ofAt = _
  rw [read_plain hspecs]
  show ofAt (understood config [file, digits n]) = _
  unfold ofAt
  simp only [operands_understood, value?, config?_understood hconfig, values_understood, help_not_mem_understood,
    List.getElem?_cons_zero, List.getElem?_cons_succ, Option.mapM_some, hpath, line_digits hpos hmax]
  rfl

end Request

end Marginalia
