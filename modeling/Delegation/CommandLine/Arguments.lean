import Delegation.Log

/-!
This module contains the arguments of the command line. They are read from left to right. An option
waits for its value until another option or the end of the arguments settles it.
-/

namespace Delegation

structure Arguments where
  schema : String
  output : String
  config : Option String
  logLevel : LogLevel
  isDryRun : Bool
deriving DecidableEq

inductive ArgumentsError where
  | unknownArgument
  | tooManyValues
  | invalidValue
  | conflict
  | invalidLogLevel
  | help
  | version
  | missingArgument
deriving DecidableEq

namespace ArgumentsError

def message : ArgumentsError → String
  | unknownArgument => "unexpected argument"
  | tooManyValues => "an option without a value was given one"
  | invalidValue => "an option needs a value"
  | conflict => "an option was given more than once"
  | invalidLogLevel => "unknown log level"
  | help => "help"
  | version => "version"
  | missingArgument => "the schema and `--output` are required"

end ArgumentsError

inductive ValueOption where
  | output
  | config
  | logLevel
deriving DecidableEq

inductive ArgumentName where
  | option (o : ValueOption)
  | dryRun
  | help
  | version
deriving DecidableEq

namespace ArgumentName

def ofLong? : String → Option ArgumentName
  | "output" => some (option .output)
  | "config" => some (option .config)
  | "log-level" => some (option .logLevel)
  | "dry-run" => some dryRun
  | "help" => some help
  | "version" => some version
  | _ => none

def ofShort? : Char → Option ArgumentName
  | 'o' => some (option .output)
  | 'c' => some (option .config)
  | 'h' => some help
  | 'V' => some version
  | _ => none

end ArgumentName

def LogLevel.ofName? (name : String) : Option LogLevel :=
  all.find? (·.name == String.ofList (name.toList.map Char.toLower))

structure ArgumentsState where
  schema : Option String
  output : Option String
  config : Option String
  logLevel : Option LogLevel
  isDryRun : Bool
  /--
  The last option, with its value if that was read, as long as it is not settled.
  -/
  pending : Option (ValueOption × Option String)

namespace ArgumentsState

def empty : ArgumentsState :=
  ⟨none, none, none, none, false, none⟩

def assign (s : ArgumentsState) (o : ValueOption) (value : String) :
    Except ArgumentsError ArgumentsState :=
  match o with
  | .output => if s.output.isSome then .error .conflict else .ok { s with output := value }
  | .config => if s.config.isSome then .error .conflict else .ok { s with config := value }
  | .logLevel =>
    if s.logLevel.isSome then
      .error .conflict
    else
      match LogLevel.ofName? value with
      | some level => .ok { s with logLevel := level }
      | none => .error .invalidLogLevel

def settle (s : ArgumentsState) : Except ArgumentsError ArgumentsState :=
  match s.pending with
  | none => .ok s
  | some (_, none) => .error .invalidValue
  | some (o, some value) => { s with pending := none }.assign o value

def readNamed (s : ArgumentsState) (name : ArgumentName) (value : Option String) :
    Except ArgumentsError ArgumentsState :=
  match name, value with
  | .option o, none => do return { ← s.settle with pending := some (o, none) }
  | .option o, some value => do (← s.settle).assign o value
  | _, some _ => .error .tooManyValues
  | .dryRun, none => do
    let s ← s.settle
    if s.isDryRun then .error .conflict else .ok { s with isDryRun := true }
  | .help, none => do
    let _ ← s.settle
    .error .help
  | .version, none => do
    let _ ← s.settle
    .error .version

def readShort (s : ArgumentsState) : List Char → Except ArgumentsError ArgumentsState
  | [] => .ok s
  | c :: cs =>
    match ArgumentName.ofShort? c with
    | none => .error .unknownArgument
    | some (.option o) =>
      match cs with
      | [] => s.readNamed (.option o) none
      | '=' :: cs => s.readNamed (.option o) (some (.ofList cs))
      | cs => s.readNamed (.option o) (some (.ofList cs))
    | some name => do (← s.readNamed name none).readShort cs

def readLong (s : ArgumentsState) (cs : List Char) : Except ArgumentsError ArgumentsState :=
  match ArgumentName.ofLong? (.ofList (cs.takeWhile (· != '='))) with
  | none => .error .unknownArgument
  | some name =>
    match cs.dropWhile (· != '=') with
    | [] => s.readNamed name none
    | _ :: value => s.readNamed name (some (.ofList value))

def readPositional (s : ArgumentsState) (arg : String) : Except ArgumentsError ArgumentsState :=
  if s.schema.isSome then
    .error .unknownArgument
  else do
    return { ← s.settle with schema := some arg }

def read (s : ArgumentsState) : List String → Except ArgumentsError ArgumentsState
  | [] => s.settle
  | arg :: args =>
    match arg.toList with
    | ['-', '-'] => do (← args.foldlM readPositional s).settle
    | '-' :: '-' :: cs => do (← s.readLong cs).read args
    | '-' :: c :: cs => do (← s.readShort (c :: cs)).read args
    | _ =>
      match s.pending with
      | some (o, none) => { s with pending := some (o, some arg) }.read args
      | _ => do (← s.readPositional arg).read args

end ArgumentsState

def Arguments.parse (args : List String) : Except ArgumentsError Arguments := do
  let s ← ArgumentsState.empty.read args
  match s.schema, s.output with
  | some schema, some output =>
    return ⟨schema, output, s.config, s.logLevel.getD .info, s.isDryRun⟩
  | _, _ => throw .missingArgument

end Delegation
