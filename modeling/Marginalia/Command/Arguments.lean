import Marginalia.Command.At
import Marginalia.Command.Scan
/-!
# Command lines

A command line names a command and gives it options and operands in any order.  An
option has a long name behind two dashes and may have a one-letter name behind one
dash; one-letter names can be run together.  The value of an option follows in the next
argument, or in the same one, behind an optional `=` after a one-letter name and behind
a `=` after a long one.  Behind `--` everything is an operand.

A command line is read from left to right, up to the option that asks for help.  What
stands before that option has to be in order, only operands may still be missing.

Arguments need not be text.  Those that name files are taken as they are; the others have
to be text.
-/
namespace Marginalia

inductive UsageError
  | noCommand
  | unexpected (argument : RawText)
  | missingValue (option : String)
  | needlessValue (option : String)
  | repeated (option : String)
  | badValue (operand : String)
  | missingOperand (operand : String)
  | notUtf8
deriving DecidableEq, Repr

def UsageError.message : UsageError → String
  | noCommand => "a command is required"
  | unexpected argument => s!"unexpected argument '{argument.display}'"
  | missingValue option => s!"a value is required for '--{option}'"
  | needlessValue option => s!"no value is allowed for '--{option}'"
  | repeated option => s!"'--{option}' cannot be used more than once"
  | badValue operand => s!"invalid value for {operand}"
  | missingOperand operand => s!"{operand} is required"
  | notUtf8 => "invalid UTF-8 was detected in one or more arguments"

/-- What a command line asks for. -/
inductive Request
  | version
  | help
  | scan (request : ScanRequest)
  | at (request : AtRequest)
  | languages (config : Option RawText)
deriving DecidableEq, Repr

structure OptionSpec where
  long : String
  short : Option Char := none
  takesValue : Bool := false

/-- An argument that is understood as far as the options are known. -/
inductive Argument
  | flag (long : String)
  | option (long : String) (value : RawText)
  | operand (value : RawText)
  | help
deriving DecidableEq, Repr

namespace Argument

def dash : UInt8 := '-'.toUInt8

def equals : UInt8 := '='.toUInt8

/-- Something stands behind a dash. -/
def looksLikeOption (argument : RawText) : Bool := argument.head? == some dash && argument != [dash]

/-- The next argument as the value of an option, and the arguments behind it.  What looks
like an option is no value. -/
def nextValue (long : String) : List RawText → Except UsageError (RawText × List RawText)
  | [] => .error (.missingValue long)
  | value :: rest => if looksLikeOption value then .error (.missingValue long) else .ok (value, rest)

/-- Reads one-letter names that are run together, with the arguments behind them. -/
def readLetters (specs : List OptionSpec) (rest : List RawText) :
    RawText → Except UsageError (List Argument × List RawText)
  | [] => .ok ([], rest)
  | letter :: letters =>
    match specs.find? (·.short.map Char.toUInt8 == some letter) with
    | none =>
      if letter = 'h'.toUInt8 then .ok ([.help], rest)
      else .error (.unexpected (dash :: letter :: letters.takeWhile RawText.isLater))
    | some spec =>
      if spec.takesValue then
        if letters.isEmpty then
          (nextValue spec.long rest).map fun (value, rest) => ([.option spec.long value], rest)
        else .ok ([.option spec.long (([equals].isPrefixOf? letters).getD letters)], rest)
      else
        (readLetters specs rest letters).map fun (found, rest) => (.flag spec.long :: found, rest)

/-- Reads a long name and what is attached to it, with the arguments behind it. -/
def readLong (specs : List OptionSpec) (rest : List RawText) (t : RawText) :
    Except UsageError (List Argument × List RawText) :=
  let name := t.takeWhile (· != equals)
  let attached := match t.dropWhile (· != equals) with
    | [] => none
    | _ :: value => some value
  match specs.find? fun spec => RawText.ofString spec.long == name, attached with
  | none, none =>
    if name = "help" then .ok ([.help], rest) else .error (.unexpected (dash :: dash :: name))
  | none, some _ => .error (.unexpected (dash :: dash :: name))
  | some spec, none =>
    if spec.takesValue then
      (nextValue spec.long rest).map fun (value, rest) => ([.option spec.long value], rest)
    else .ok ([.flag spec.long], rest)
  | some spec, some value =>
    if spec.takesValue then .ok ([.option spec.long value], rest)
    else .error (.needlessValue spec.long)

/-- Reads the arguments of a command, at most `bound` of them, up to the one that asks for
help. -/
def readAll (specs : List OptionSpec) : (bound : Nat) → List RawText → Except UsageError (List Argument)
  | 0, _ => .ok []
  | _, [] => .ok []
  | bound + 1, argument :: rest => do
    let (found, rest) ←
      if argument = [dash, dash] then .ok (rest.map .operand, [])
      else if !looksLikeOption argument then .ok ([.operand argument], rest)
      else match [dash, dash].isPrefixOf? argument with
        | some t => readLong specs rest t
        | none => readLetters specs rest argument.tail
    if found.contains .help then return found
    else return found ++ (← readAll specs bound rest)

def read (specs : List OptionSpec) (arguments : List RawText) : Except UsageError (List Argument) :=
  readAll specs arguments.length arguments

def operands (arguments : List Argument) : List RawText :=
  arguments.filterMap fun
    | .operand value => some value
    | _ => none

def values (long : String) (arguments : List Argument) : List RawText :=
  arguments.filterMap fun
    | .option name value => if name = long then some value else none
    | _ => none

/-- Whether a flag is given; it may be given once. -/
def flag? (long : String) (arguments : List Argument) : Except UsageError Bool :=
  match arguments.count (.flag long) with
  | 0 => .ok false
  | 1 => .ok true
  | _ => .error (.repeated long)

/-- The value of an option that may be given once. -/
def value? (long : String) (arguments : List Argument) : Except UsageError (Option RawText) :=
  match values long arguments with
  | [] => .ok none
  | [value] => .ok (some value)
  | _ => .error (.repeated long)

/-- A path, which may not be empty. -/
def path (operand : String) (value : RawText) : Except UsageError RawText :=
  if value = [] then .error (.badValue operand) else .ok value

/-- A value that has to be text. -/
def text (value : RawText) : Except UsageError String :=
  match value.toString? with
  | some text => .ok text
  | none => .error .notUtf8

def config? (arguments : List Argument) : Except UsageError (Option RawText) := do
  match ← value? "config" arguments with
  | some value => return some (← path "config" value)
  | none => return none

def maximumLine : Nat := 4294967295

/-- A line number, counted from one; a plus sign may stand before it. -/
def lineOfText (text : String) : Except UsageError Nat :=
  let digits := match text.toList with
    | '+' :: t => t
    | t => t
  let n := digits.foldl (fun n c => 10 * n + (c.toNat - 48)) 0
  if !digits.isEmpty && digits.all Char.isDigit && 1 ≤ n && n ≤ maximumLine then .ok n
  else .error (.badValue "LINE")

def line (value : RawText) : Except UsageError Nat := do lineOfText (← text value)

end Argument

namespace Request

def configSpec : OptionSpec := { long := "config", short := some 'c', takesValue := true }

def scanSpecs : List OptionSpec :=
  [{ long := "json" }, configSpec, { long := "hidden" }, { long := "no-gitignore" },
    { long := "exclude", short := some 'e', takesValue := true },
    { long := "verbose", short := some 'v' }]

def atSpecs : List OptionSpec :=
  [{ long := "language", short := some 'l', takesValue := true }, configSpec]

open Argument

def ofScan (arguments : List Argument) : Except UsageError Request := do
  let roots ← (operands arguments).mapM (path "PATHS")
  let hidden ← flag? "hidden" arguments
  let noGitignore ← flag? "no-gitignore" arguments
  let _ ← flag? "verbose" arguments
  let json ← flag? "json" arguments
  let config ← config? arguments
  let exclude ← (values "exclude" arguments).mapM text
  let overrides : Overrides := {
    hidden := if hidden then some true else none
    respectGitignore := if noGitignore then some false else none
    exclude }
  return if arguments.contains .help then .help else .scan { roots, json, config, overrides }

def ofAt (arguments : List Argument) : Except UsageError Request := do
  let operands := operands arguments
  let file ← operands[0]?.mapM (path "FILE")
  let line ← operands[1]?.mapM Argument.line
  if let some extra := operands[2]? then throw (.unexpected extra)
  let language ← (← value? "language" arguments).mapM text
  let config ← config? arguments
  if arguments.contains .help then return .help
  match file, line with
  | some file, some line => return .at { file, line, language, config }
  | none, _ => throw (.missingOperand "FILE")
  | _, none => throw (.missingOperand "LINE")

def ofLanguages (arguments : List Argument) : Except UsageError Request := do
  match operands arguments with
  | [] =>
    let config ← config? arguments
    return if arguments.contains .help then .help else .languages config
  | extra :: _ => throw (.unexpected extra)

def commands : List RawText := ["scan", "at", "languages", "help"]

def ofHelp : List RawText → Except UsageError Request
  | [] => .ok .help
  | [command] => if commands.contains command then .ok .help else .error (.unexpected command)
  | _ :: extra :: _ => .error (.unexpected extra)

def ofArguments : List RawText → Except UsageError Request
  | [] => .error .noCommand
  | command :: rest =>
    if command = "scan" then do ofScan (← Argument.read scanSpecs rest)
    else if command = "at" then do ofAt (← Argument.read atSpecs rest)
    else if command = "languages" then do ofLanguages (← Argument.read [configSpec] rest)
    else if command = "help" then ofHelp rest
    else if command = "--version" || (RawText.ofString "-V").isPrefixOf command then .ok .version
    else if command = "--help" || (RawText.ofString "-h").isPrefixOf command then .ok .help
    else .error (.unexpected command)

end Request

end Marginalia
