import FlowIR.Command.Report

/-!
# The command

Reads a table from a file and prints what the options ask for. Results go to the standard output,
errors to the standard error output.
-/
namespace FlowIR.Command

def usageText : String :=
  "Usage: flowir [--dump-cfg] [--dump-cdg] [--function NAME] [--analyze escape] FILE"

def versionText : String := "flowir 0.1.0"

def Usage.message : Usage → String
  | missingRequiredArgument => "the name of a file is missing"
  | unknownArgument => "unexpected argument"
  | invalidValue => "invalid or missing value of an option"
  | argumentConflict => "an option cannot be used twice"
  | tooManyValues => "unexpected value of an option"
  | displayHelp => usageText
  | displayVersion => versionText

def reportUsage (usage : Usage) : IO UInt32 := do
  match usage with
  | .displayHelp | .displayVersion =>
    IO.println usage.message
    return 0
  | _ =>
    IO.eprintln ("error: " ++ usage.message ++ "\n\n" ++ usageText)
    return 2

def reportError (message : String) : IO UInt32 := do
  IO.eprintln ("error: " ++ message)
  return 1

def execute (options : Options) : IO UInt32 := do
  match ← (IO.FS.readFile options.file).toBaseIO with
  | .error cause => reportError ("failed to read " ++ options.file ++ ": " ++ toString cause)
  | .ok text =>
    match run options text with
    | .error error => reportError (error.message?.getD "a number is out of range")
    | .ok output =>
      IO.print output
      return 0

end FlowIR.Command

def main (arguments : List String) : IO UInt32 :=
  match FlowIR.Command.Options.parse arguments with
  | .error usage => FlowIR.Command.reportUsage usage
  | .ok options => FlowIR.Command.execute options
