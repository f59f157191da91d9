import Verilower.Options
import Verilower.Settings.Document

namespace Verilower

def ErrorModel.ofName? : String → Option ErrorModel
  | "exception" => some .exception
  | "assertion" => some .assertion
  | _ => none

/-- An error model is written by its name, or as a table whose only key is its name, with an empty
table as value. -/
def ErrorModel.ofValue? : Settings.Value → Option ErrorModel
  | .string name => ofName? name
  | .table _ [(name, .table _ [])] => ofName? name
  | _ => none

namespace Options

inductive Error where
  /-- The file at `path` cannot be read as text. -/
  | unreadable (path : String)
  /-- The text does not spell options. -/
  | invalid
deriving DecidableEq

def Error.message : Error → String
  | .unreadable path => "cannot read options from `" ++ path ++ "`"
  | .invalid => "invalid translation options"

def set (options : Options) : String × Settings.Value → Option Options
  | ("error_model", v) => do return { options with errorModel := ← ErrorModel.ofValue? v }
  | ("no_array_bounds_checks", .bool b) => some { options with noArrayBoundsChecks := b }
  | ("scope", .string text) => some { options with scope := some text }
  | _ => none

/-- The options that a text spells; those it does not mention keep their defaults. -/
def ofText (text : String) : Except Error Options :=
  match (Settings.document? text).bind fun es => es.foldlM set {} with
  | some options => .ok options
  | none => .error .invalid

/-- The options in the file at `path`, which has the given bytes if it exists. -/
def ofFile (path : String) (bytes : Option ByteArray) : Except Error Options :=
  match bytes.bind String.fromUTF8? with
  | some text => ofText text
  | none => .error (.unreadable path)

end Options

end Verilower
