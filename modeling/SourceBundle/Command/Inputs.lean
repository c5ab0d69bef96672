import SourceBundle.Command.Request
import SourceBundle.Hint
import SourceBundle.Log
import SourceBundle.Project.Inputs

/-! # The inputs of a run

A project file that is named is always read and must exist. The default one is read only where
no files are given. Files that are given take the place of those the project lists; a charset
that is given takes the place of the project's.
-/
namespace SourceBundle.Command

structure Resolved where
  files : List String
  options : Options
  /-- Where the project wants the output. -/
  output : Option String
deriving DecidableEq, Repr, Inhabited

namespace InputArguments

variable [Project.Decoder] [Glob.Expander]

def loadProject (w : Workspace) (a : InputArguments) :
    Logged (Except Report (Option Project)) :=
  let load := fun path => ((Project.ofFile w path).map some).mapError Report.ofError
  match a.config with
  | some path => ⟨if w.exists? path then load path else .error (.projectNotFound path), []⟩
  | none =>
    if a.files.isEmpty && w.isFile Project.defaultFile then
      ⟨load Project.defaultFile,
        [⟨.debug, .inputs, "Using project file '" ++ Project.defaultFile ++ "'", false⟩]⟩
    else ⟨.ok none, []⟩

/-- What the arguments ask for by themselves. -/
def options (a : InputArguments) : Options :=
  { verbose := a.verbose, eliminateUnused := a.eliminateUnused }

def withProject (w : Workspace) (a : InputArguments) (project : Option Project) :
    Except Report Resolved := do
  let files ← match project with
    | some p =>
      if a.files.isEmpty then (p.resolveInputs w).mapError Report.ofError else .ok a.files
    | none => .ok a.files
  let o := project.elim a.options (·.applyTo a.options)
  let charset ← match a.charset with
    | some name =>
      match Charset.ofName? name with
      | some charset => .ok charset
      | none => .error (.withHint (.unsupportedCharset name))
    | none => .ok o.charset
  if files.isEmpty then throw .noInputs
  if !files.any (w.isFile ·) then throw (.noExistingInputs files.length)
  return ⟨files, { o with charset }, project.bind Project.resolvedOutput⟩

def resolve (w : Workspace) (a : InputArguments) : Logged (Except Report Resolved) :=
  (a.loadProject w).map fun project => project.bind (a.withProject w)

end InputArguments

end SourceBundle.Command
