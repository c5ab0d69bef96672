import SourceBundle.Fault

/-! # Errors

What can stop a run, the sentence that says so, and the cause beneath it, if there is one.
Paths are texts as the user or the directive wrote them.
-/
namespace SourceBundle

inductive Error where
  /-- A directive names something that is not a file. -/
  | missingDependency (path declaredIn : String)
  /-- A directive is never closed; `directive` is its first line. -/
  | malformedDirective (file directive : String)
  /-- Files that need each other; `cycle` is the way round. -/
  | cycleDetected (cycle : String)
  | read (path : String) (fault : Fault)
  | write (fault : Fault)
  | unsupportedCharset (name : String)
  /-- The project file is not acceptable. -/
  | config (message : String) (hint : Option String)
  | io (fault : Fault)
  | yaml (reason : String)
  /-- A wildcard pattern that is not well formed. -/
  | glob (reason : String)
deriving DecidableEq, Repr, Inhabited

namespace Error

def cause? : Error → Option String
  | read _ fault | write fault | io fault => some fault.text
  | yaml reason | glob reason => some reason
  | _ => none

def message : Error → String
  | missingDependency path declaredIn =>
    "Dependency file not found: '" ++ path ++ "' (required by '" ++ declaredIn ++ "')"
  | malformedDirective file directive =>
    "Invalid requires comment in '" ++ file ++ "': unterminated directive '" ++ directive ++ "'"
  | cycleDetected cycle => "Cycle detected in file dependencies: " ++ cycle
  | read path fault => "Failed to read '" ++ path ++ "': " ++ fault.text
  | write fault => "Failed to write output: " ++ fault.text
  | unsupportedCharset name => "Unsupported charset: " ++ name
  | config message hint =>
    "Configuration parsing error: " ++ message ++ (hint.elim "" ("\n  hint: " ++ ·))
  | io fault => "I/O error: " ++ fault.text
  | yaml reason => "YAML parsing error: " ++ reason
  | glob reason => "Glob pattern error: " ++ reason

end Error

end SourceBundle
