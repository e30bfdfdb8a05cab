import RefDoc.Run.Settings
import RefDoc.Text.Terminal

namespace RefDoc

inductive Flag where
  | sourceDir
  | outputDir
  | verbose
  | json
  | help
deriving DecidableEq, Repr

namespace Flag

def all : List Flag :=
  [.sourceDir, .outputDir, .verbose, .json, .help]

def long : Flag → String
  | .sourceDir => "source-dir"
  | .outputDir => "output-dir"
  | .verbose => "verbose"
  | .json => "json"
  | .help => "help"

def short? : Flag → Option Char
  | .sourceDir => some 's'
  | .outputDir => some 'o'
  | .verbose => some 'v'
  | .json => none
  | .help => some 'h'

def valueName? : Flag → Option String
  | .sourceDir => some "SOURCE_DIR"
  | .outputDir => some "OUTPUT_DIR"
  | _ => none

def takesValue (f : Flag) : Bool :=
  f.valueName?.isSome

def shown (f : Flag) : String :=
  match f.valueName? with
  | some name => "--" ++ f.long ++ " <" ++ name ++ ">"
  | none => "--" ++ f.long

end Flag

inductive UsageError where
  | unexpectedArgument (arg : String)
  | missingValue (f : Flag)
  | repeated (f : Flag)
  | unexpectedValue (value : String) (f : Flag)
deriving DecidableEq, Repr

/-- The message for a usage error. What the user has typed is shown without what controls a
terminal. -/
def UsageError.message : UsageError → String
  | .unexpectedArgument arg =>
    "unexpected argument '" ++ String.ofList (Text.plain arg.toList) ++ "' found"
  | .missingValue f => "a value is required for '" ++ f.shown ++ "' but none was supplied"
  | .repeated f => "the argument '" ++ f.shown ++ "' cannot be used multiple times"
  | .unexpectedValue value f =>
    "unexpected value '" ++ String.ofList (Text.plain value.toList) ++ "' for '" ++ f.shown ++
      "' found; no more were expected"

inductive Stop where
  | help
  | usage (e : UsageError)
deriving DecidableEq, Repr

namespace Argument

/-- The arguments so far: the settings they make, the flags they set, and the option that is not
settled because an argument may still follow, with its value if it has got one. -/
structure State where
  settings : Settings := {}
  given : List Flag := []
  waiting : Option (Flag × Option String) := none

def fail {α : Type} (e : UsageError) : Except Stop α :=
  .error (.usage e)

def set (s : Settings) : Flag → String → Settings
  | .sourceDir, value => { s with sourceDir := value }
  | .outputDir, value => { s with outputDir := value }
  | .verbose, _ => { s with verbose := true }
  | .json, _ => { s with json := true }
  | .help, _ => s

/-- Sets a flag. The faults come in this order: no value, given before, empty value. -/
def give (st : State) (f : Flag) (value : Option String) : Except Stop State :=
  if f = .help then .error .help
  else if f.takesValue && value.isNone then fail (.missingValue f)
  else if f ∈ st.given then fail (.repeated f)
  else if f.takesValue && value == some "" then fail (.missingValue f)
  else .ok { st with settings := set st.settings f (value.getD ""), given := f :: st.given }

def settle (st : State) : Except Stop State :=
  match st.waiting with
  | none => .ok st
  | some (f, value) => give { st with waiting := none } f value

def record (st : State) (f : Flag) (value : Option String) : Except Stop State := do
  give (← settle st) f value

def await (st : State) (f : Flag) : Except Stop State := do
  return { ← settle st with waiting := some (f, none) }

/-- A cluster of one-letter flags. What stands behind an option that takes a value is the value. -/
def addCluster (st : State) : List Char → Except Stop State
  | [] => .ok st
  | c :: cs =>
    match Flag.all.find? (·.short? == some c) with
    | none => fail (.unexpectedArgument (String.ofList ['-', c]))
    | some f =>
      if f.takesValue then
        match cs with
        | [] => await st f
        | '=' :: value => record st f (some (String.ofList value))
        | value => record st f (some (String.ofList value))
      else do addCluster (← record st f none) cs

def addLong (st : State) (t : List Char) : Except Stop State :=
  let name := String.ofList (t.takeWhile (· != '='))
  let value :=
    match t.dropWhile (· != '=') with
    | [] => none
    | _ :: value => some (String.ofList value)
  match Flag.all.find? (·.long == name), value with
  | none, _ => fail (.unexpectedArgument ("--" ++ name))
  | some f, none => if f.takesValue then await st f else record st f none
  | some f, some value =>
    if f.takesValue then record st f (some value) else fail (.unexpectedValue value f)

def addPlain (st : State) (arg : String) : Except Stop State :=
  match st.waiting with
  | some (f, none) => .ok { st with waiting := some (f, some arg) }
  | _ => fail (.unexpectedArgument arg)

/-- Nothing may follow the argument `--`, not even the value that an option waits for. -/
def addAll (st : State) : List String → Except Stop State
  | [] => settle st
  | arg :: args =>
    match arg.toList with
    | ['-', '-'] =>
      match args with
      | [] => settle st
      | extra :: _ => fail (.unexpectedArgument extra)
    | '-' :: '-' :: t => do addAll (← addLong st t) args
    | '-' :: c :: cs => do addAll (← addCluster st (c :: cs)) args
    | _ => do addAll (← addPlain st arg) args

end Argument

def Settings.ofArguments (args : List String) : Except Stop Settings :=
  (Argument.addAll {} args).map (·.settings)

end RefDoc
