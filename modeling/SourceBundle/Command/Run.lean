import SourceBundle.Command.Arguments
import SourceBundle.Command.Inputs
import SourceBundle.FileSystem.Update
import SourceBundle.Listing
import SourceBundle.Log.Filter
import SourceBundle.Plan
import SourceBundle.Tree

/-! # Running commands

A run maps a command line, an environment and a workspace to an exit code, two texts and the
files it leaves. Everything is planned before a file is made, and all contents are at hand by
then, so an output may take the place of an input.
-/
namespace SourceBundle.Command

open Text.Utf8 (Octets)

variable [Project.Decoder] [Glob.Expander]

/-- The variables that a run looks at. -/
structure Environment where
  /-- The project file. -/
  config : Option String := none
  /-- The log filter; it takes the place of the log level. -/
  logFilter : Option String := none
deriving DecidableEq, Repr, Inhabited

/-- What a command comes to. -/
structure Performed where
  result : Except Report Octets
  files : FileSystem
  log : List Log.Line := []

def withInputs (w : Workspace) (a : InputArguments) (f : Resolved → Performed) : Performed :=
  let resolved := a.resolve w
  match resolved.value with
  | .error report => ⟨.error report, w.files, resolved.log⟩
  | .ok inputs =>
    let p := f inputs
    { p with log := resolved.log ++ p.log }

def withPlan (w : Workspace) (o : Options) (files : List String) (f : Plan → Performed) :
    Performed :=
  let planned := planPaths w o files
  match planned.value with
  | .error e => ⟨.error (.withHint e), w.files, planned.log⟩
  | .ok plan =>
    let p := f plan
    { p with log := planned.log ++ p.log }

/-- Makes the directories above a path, where it has any. -/
def makeParents (w : Workspace) (path : String) : FileSystem × Option Report :=
  match Path.parent? path with
  | none | some "" => (w.files, none)
  | some parent =>
    let (files, fault) := w.createDirectories parent
    (files, fault.map fun fault =>
      ⟨"Failed to create directory '" ++ parent ++ "'", some fault.text⟩)

def writeFile (w : Workspace) (plan : Plan) (path : String) : Performed :=
  match makeParents w path with
  | (files, some report) => ⟨.error report, files, []⟩
  | (files, none) =>
    let outcome := plan.writeTo {}
    match Workspace.writeFile ⟨files, w.current⟩ path outcome.sink.received with
    | .error fault =>
      ⟨.error ⟨"Failed to create output '" ++ path ++ "'", some fault.text⟩, files, []⟩
    | .ok files =>
      ⟨.ok [], files, outcome.log ++ [⟨.info, .combine,
        "Wrote " ++ toString plan.order.length ++ " file(s) to '" ++ path ++ "'", false⟩]⟩

def combine (w : Workspace) (a : InputArguments) (output : Option String) (separator : Bool) :
    Performed :=
  withInputs w a fun inputs =>
    let o := { inputs.options with separator := inputs.options.separator || separator }
    withPlan w o inputs.files fun plan =>
      match output.or inputs.output with
      | some path => writeFile w plan path
      | none =>
        let outcome := plan.writeTo {}
        ⟨.ok outcome.sink.received, w.files, outcome.log⟩

def order (w : Workspace) (a : InputArguments) (json : Bool) : Performed :=
  withInputs w a fun inputs =>
    withPlan w inputs.options inputs.files fun plan =>
      ⟨.ok (printed (if json then Listing.json plan else Listing.text plan)), w.files, []⟩

def tree (w : Workspace) (a : InputArguments) (depth : Option Nat) : Performed :=
  withInputs w a fun inputs =>
    let kept := Discovery.filterEntries w inputs.files
    let found := discover w inputs.options.charset kept.value
    let result := match found.value with
      | .error e => .error (Report.withHint e)
      | .ok d =>
        let trees := Tree.forest d.registry depth d.entries
        .ok (printed (Tree.draw d.registry w.current trees))
    ⟨result, w.files, kept.log ++ found.log⟩

def perform [Reader] (w : Workspace) : Task → Performed
  | .combine a output separator => combine w a output separator
  | .order a json => order w a json
  | .tree a depth => tree w a depth
  | .completions shell => ⟨.ok (Reader.completions shell), w.files, []⟩

/-! ## What the user sees -/

structure Execution where
  code : Nat
  output : Octets := []
  report : String := ""
  files : FileSystem

/-- The text of a log line; its level takes five columns. -/
def logText (line : Log.Line) : String :=
  let name := line.level.name
  "[" ++ name ++ String.ofList (List.replicate (5 - name.length) ' ') ++ "] "
    ++ Report.indent line.message ++ "\n"

/-- The text of a log filter for a level: one that asks for progress gets at least `info`. -/
def filterText (level : String) (verbose : Bool) : String :=
  let level := Log.Filter.lower level.toList
  if level = "debug" || level = "trace" then level
  else if verbose then "info"
  else level

def execute [Reader] (w : Workspace) (environment : Environment) (r : Request) : Execution :=
  let verbose := r.task.verbose
  let (filter, warnings) :=
    Log.Filter.parse (environment.logFilter.getD (filterText r.logLevel verbose))
  let p := perform w r.task
  let lines := (Log.shown verbose p.log).filter filter.passes
  let before := String.join (warnings.map ("warning: " ++ · ++ ", ignoring it\n"))
    ++ String.join (lines.map logText)
  match p.result with
  | .ok output => ⟨0, output, before, p.files⟩
  | .error report => ⟨1, [], before ++ "Error: " ++ report.text ++ "\n", p.files⟩

def run [Reader] (w : Workspace) (environment : Environment) (args : List String) : Execution :=
  match Reader.read environment.config args with
  | .ok r => execute w environment r
  | .error answer => ⟨answer.code, answer.output, answer.report, w.files⟩

end SourceBundle.Command
