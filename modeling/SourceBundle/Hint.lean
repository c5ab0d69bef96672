import SourceBundle.Error

/-! # Hints and reports

A hint tells how to mend an error. A report is what the user gets to read: a message and, where
the error was passed on unchanged, the cause beneath it.
-/
namespace SourceBundle

def Error.hint? : Error → Option String
  | .missingDependency .. => some
    "hint: Paths in /*requires */ are resolved against the directory of the file that declares them"
  | .malformedDirective .. => some "hint: Close the directive with */, e.g. /*requires util.js */"
  | .cycleDetected _ => some "hint: Remove one of the /*requires */ directives along the cycle"
  | .unsupportedCharset _ => some "hint: Supported charsets: utf-8, iso-8859-1, us-ascii"
  | _ => none

structure Report where
  message : String
  cause : Option String := none
deriving DecidableEq, Repr, Inhabited

namespace Report

def ofError (e : Error) : Report := ⟨e.message, e.cause?⟩

/-- An error with its hint; the hint takes the place of the cause. -/
def withHint (e : Error) : Report :=
  match e.hint? with
  | some hint => ⟨e.message ++ "\n\n" ++ hint, none⟩
  | none => ofError e

/-- A text with every line after the first moved in by four columns. -/
def indent (text : String) : String :=
  String.ofList (text.toList.flatMap fun c => if c = '\n' then "\n    ".toList else [c])

def text (r : Report) : String :=
  match r.cause with
  | some cause => r.message ++ "\n\nCaused by:\n    " ++ indent cause
  | none => r.message

/-- A message with hints below it, one on a line. -/
def advice (message : String) (hints : List String) : Report :=
  ⟨message ++ "\n" ++ String.join (hints.map ("\nhint: " ++ ·)), none⟩

def projectNotFound (path : String) : Report :=
  advice ("Configuration file not found: " ++ path)
    ["Create a .combiner.yaml file listing your inputs",
      "Use -c/--config to specify a different path",
      "Set FILE_COMBINER_CONFIG environment variable"]

/-- Neither the command line nor a project file names an input. -/
def noInputs : Report :=
  advice "No input files given"
    ["Pass entry files as arguments, e.g. 'file-combiner combine src/main.js'",
      "Or list them under 'inputs:' in a .combiner.yaml file"]

def noExistingInputs (count : Nat) : Report :=
  advice ("None of the " ++ toString count ++ " input file(s) could be found")
    ["Paths are resolved against the current directory",
      "Run with --verbose to see which files were skipped"]

end Report

end SourceBundle
