/-!
# Options of the command line

Options are read from left to right. A separate value is only stored when the next option, the file
name or the end of the line has been met, so an unknown option is reported before a bad value in
front of it.
-/
namespace FlowIR.Command

inductive AnalysisName where
  | escape
  deriving DecidableEq, Repr

def AnalysisName.ofText? : String → Option AnalysisName
  | "escape" => some .escape
  | _ => none

structure Options where
  dumpFlow : Bool := false
  dumpDependence : Bool := false
  function : Option String := none
  analysis : Option AnalysisName := none
  file : String
  deriving DecidableEq, Repr

/-- Why no options come out of a command line. -/
inductive Usage where
  | missingRequiredArgument
  | unknownArgument
  | invalidValue
  | argumentConflict
  | tooManyValues
  | displayHelp
  | displayVersion
  deriving DecidableEq, Repr

inductive Flag where
  | dumpFlow
  | dumpDependence
  | help
  | version
  deriving DecidableEq, Repr

/-- An option that takes a value. -/
inductive Setting where
  | function
  | analyze
  deriving DecidableEq, Repr

def flagNamed? : String → Option Flag
  | "dump-cfg" => some .dumpFlow
  | "dump-cdg" => some .dumpDependence
  | "help" => some .help
  | "version" => some .version
  | _ => none

def settingNamed? : String → Option Setting
  | "function" => some .function
  | "analyze" => some .analyze
  | _ => none

inductive Token where
  /-- Ends the options. -/
  | escape
  | long (name : String) (value : Option String)
  /-- One or more letters after a single hyphen. -/
  | short (first : Char)
  | word (text : String)
  deriving DecidableEq, Repr

/-- A name, and what follows the first equals sign. -/
def splitAtEquals (chars : List Char) : String × Option String :=
  let name := chars.takeWhile (· ≠ '=')
  match chars.dropWhile (· ≠ '=') with
  | [] => (String.ofList name, none)
  | _ :: value => (String.ofList name, some (String.ofList value))

def Token.ofText (text : String) : Token :=
  match text.toList with
  | ['-', '-'] => .escape
  | '-' :: '-' :: rest => let (name, value) := splitAtEquals rest; .long name value
  | '-' :: first :: _ => .short first
  | _ => .word text

/-- What has been read of a command line. -/
structure Reading where
  dumpFlow : Bool := false
  dumpDependence : Bool := false
  function : Option String := none
  analysis : Option AnalysisName := none
  file : Option String := none
  /-- The last option that takes a value, with the value if it has been met. -/
  pending : Option (Setting × Option String) := none
  optionsEnded : Bool := false
  deriving DecidableEq, Repr

namespace Reading

/-- No option may be given twice. That is found out before the value is looked at. -/
def store (reading : Reading) (value : String) : Setting → Except Usage Reading
  | .function =>
    if reading.function.isSome then .error .argumentConflict
    else .ok { reading with function := some value }
  | .analyze =>
    if reading.analysis.isSome then .error .argumentConflict
    else
      match AnalysisName.ofText? value with
      | some analysis => .ok { reading with analysis := some analysis }
      | none => .error .invalidValue

/-- Stores the pending value. -/
def settle (reading : Reading) : Except Usage Reading :=
  match reading.pending with
  | none => .ok reading
  | some (_, none) => .error .invalidValue
  | some (setting, some value) => { reading with pending := none }.store value setting

def raise (reading : Reading) : Flag → Except Usage Reading
  | .dumpFlow =>
    if reading.dumpFlow then .error .argumentConflict else .ok { reading with dumpFlow := true }
  | .dumpDependence =>
    if reading.dumpDependence then .error .argumentConflict
    else .ok { reading with dumpDependence := true }
  | .help => .error .displayHelp
  | .version => .error .displayVersion

def long (reading : Reading) (name : String) (value : Option String) : Except Usage Reading :=
  match flagNamed? name, settingNamed? name, value with
  | some _, _, some _ => .error .tooManyValues
  | some flag, _, none => do (← reading.settle).raise flag
  | none, some setting, some value => do (← reading.settle).store value setting
  | none, some setting, none => do return { ← reading.settle with pending := some (setting, none) }
  | none, none, _ => .error .unknownArgument

def short (reading : Reading) : Char → Except Usage Reading
  | 'h' => do (← reading.settle).raise .help
  | 'V' => do (← reading.settle).raise .version
  | _ => .error .unknownArgument

/-- There is only one file name. -/
def positional (reading : Reading) (text : String) : Except Usage Reading :=
  if reading.file.isSome then .error .unknownArgument
  else do return { ← reading.settle with file := some text }

def word (reading : Reading) (text : String) : Except Usage Reading :=
  match reading.pending with
  | some (setting, none) => .ok { reading with pending := some (setting, some text) }
  | _ => reading.positional text

def step (reading : Reading) (text : String) : Except Usage Reading :=
  if reading.optionsEnded then reading.positional text
  else
    match Token.ofText text with
    | .escape => .ok { reading with optionsEnded := true }
    | .long name value => reading.long name value
    | .short first => reading.short first
    | .word text => reading.word text

def finish (reading : Reading) : Except Usage Options := do
  let settled ← reading.settle
  match settled.file with
  | none => throw .missingRequiredArgument
  | some file => return {
      dumpFlow := settled.dumpFlow, dumpDependence := settled.dumpDependence
      function := settled.function, analysis := settled.analysis, file }

end Reading

def Options.parse (arguments : List String) : Except Usage Options := do
  (← arguments.foldlM Reading.step {}).finish

end FlowIR.Command
