import Verilower.Options.File

namespace Verilower.CommandLine

/-- Why arguments are not taken as options. -/
inductive Complaint where
  | invalidValue
  /-- An option is given twice. -/
  | argumentConflict
  /-- A flag has a value. -/
  | tooManyValues
  | unknownArgument
  /-- Not an error: help was asked for. -/
  | displayHelp
deriving DecidableEq, Inhabited

def Complaint.name : Complaint → String
  | .invalidValue => "InvalidValue"
  | .argumentConflict => "ArgumentConflict"
  | .tooManyValues => "TooManyValues"
  | .unknownArgument => "UnknownArgument"
  | .displayHelp => "DisplayHelp"

inductive Key where
  | errorModel
  | scope
deriving DecidableEq, Inhabited

structure Given where
  errorModel : Option ErrorModel := none
  noArrayBoundsChecks : Bool := false
  scope : Option String := none

def Given.options (g : Given) : Options where
  errorModel := g.errorModel.getD .exception
  noArrayBoundsChecks := g.noArrayBoundsChecks
  scope := g.scope

def Given.set (g : Given) : Key → String → Except Complaint Given
  | .errorModel, v =>
    if g.errorModel.isSome then .error .argumentConflict
    else
      match ErrorModel.ofName? v with
      | some m => .ok { g with errorModel := some m }
      | none => .error .invalidValue
  | .scope, v =>
    if g.scope.isSome then .error .argumentConflict else .ok { g with scope := some v }

/-- An option that has been named and, if it has come, its value. -/
structure Pending where
  key : Key
  value : Option String := none

/-- Settles what is pending; an option without its value is an error. -/
def Given.settle (g : Given) : Option Pending → Except Complaint Given
  | none => .ok g
  | some ⟨_, none⟩ => .error .invalidValue
  | some ⟨key, some v⟩ => g.set key v

inductive Argument where
  /-- `--`, which ends the options. -/
  | escape
  /-- An option that takes a value, with the value if it is attached. -/
  | option (key : Key) (value : Option String)
  | noArrayBoundsChecks
  | help
  /-- A flag with a value attached. -/
  | flagWithValue
  /-- Something with a dash in front that is no known option. -/
  | unknown
  | plain (text : String)

/-- The argument `--name` or `--name=value`. -/
def Argument.ofLong (name : String) (value : Option String) : Argument :=
  if name = "error-model" then .option .errorModel value
  else if name = "scope" then .option .scope value
  else if name = "no-array-bounds-checks" then
    if value.isSome then .flagWithValue else .noArrayBoundsChecks
  else if name = "help" then if value.isSome then .flagWithValue else .help
  else .unknown

/-- The form of an argument. Of the letters after a single dash only the first matters, and a dash
alone is plain. -/
def Argument.ofString (arg : String) : Argument :=
  match arg.toList with
  | ['-', '-'] => .escape
  | '-' :: '-' :: cs =>
    let value := (cs.dropWhile (· ≠ '=')).tail?
    .ofLong (String.ofList (cs.takeWhile (· ≠ '='))) (value.map String.ofList)
  | '-' :: c :: _ => if c = 'h' then .help else .unknown
  | _ => .plain arg

def read (g : Given) (pending : Option Pending) : List String → Except Complaint Given
  | [] => g.settle pending
  | arg :: args =>
    match Argument.ofString arg with
    | .escape => if args.isEmpty then g.settle pending else .error .unknownArgument
    | .option key (some v) => do
      let g ← g.settle pending
      read (← g.set key v) none args
    | .option key none => do read (← g.settle pending) (some ⟨key, none⟩) args
    | .noArrayBoundsChecks => do
      let g ← g.settle pending
      if g.noArrayBoundsChecks then throw .argumentConflict
      read { g with noArrayBoundsChecks := true } none args
    | .help => do
      let _ ← g.settle pending
      throw .displayHelp
    | .flagWithValue => .error .tooManyValues
    | .unknown => .error .unknownArgument
    | .plain text =>
      match pending with
      | some ⟨key, none⟩ => read g (some ⟨key, some text⟩) args
      | _ => .error .unknownArgument

end CommandLine

/-- The options that command line arguments spell. -/
def Options.ofArguments (args : List String) : Except CommandLine.Complaint Options := do
  return (← CommandLine.read {} none args).options

end Verilower
