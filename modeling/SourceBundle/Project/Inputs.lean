import SourceBundle.Glob.Expand
import SourceBundle.Project.Reading

/-! # The inputs of a project

Inputs with a wildcard are expanded to the files that they find; one that finds none stays as it
is written, so that it is reported like any other missing file.
-/
namespace SourceBundle.Project

variable [Decoder] [Glob.Expander]

def ofFile (w : Workspace) (path : String) : Except Error Project :=
  match w.readText path with
  | .error fault => .error (.read path fault)
  | .ok text => do
    return { ← parse text with baseDirectory := (Path.parent? path).getD "" }

def hasWildcard (input : String) : Bool := input.toList.any fun c => c = '*' || c = '?' || c = '['

/-- The paths that an input contributes. -/
def resolveInput (w : Workspace) (p : Project) (input : String) : Except Error (List String) :=
  let path := Path.join p.baseDirectory input
  if hasWildcard input then
    match Glob.Expander.expand w path with
    | .error reason => .error (.glob reason)
    | .ok found => do
      let files := (← found.mapM (·.mapError Error.io)).filter (w.isFile ·)
      return if files.isEmpty then [path] else files
  else .ok [path]

def resolveInputs (w : Workspace) (p : Project) : Except Error (List String) :=
  (p.inputs.mapM (resolveInput w p)).map List.flatten

end SourceBundle.Project
