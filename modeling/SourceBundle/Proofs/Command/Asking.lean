import SourceBundle.Command.Run
import SourceBundle.Proofs.Command.Inputs
import SourceBundle.Proofs.Command.Louder
import SourceBundle.Proofs.Plan.Asking

/-! # Commands that ask before each progress line

The commands plan and write by way of the runs that ask. What they come to is the same as before,
with the lines that are wanted, and nothing but those lines depends on the question.
-/
namespace SourceBundle.Command

def Performed.shown (verbose : Bool) (p : Performed) : Performed :=
  { p with log := Log.shown verbose p.log }

/-! ## Inputs -/

/-- The same inputs, but for the question whether progress is wanted. -/
def Resolved.asking (verbose : Bool) (inputs : Resolved) : Resolved :=
  { inputs with options := inputs.options.asking verbose }

namespace InputArguments

variable {w : Workspace} {a : InputArguments} {inputs : Resolved}

theorem checked_asking (w : Workspace) (verbose : Bool) (inputs : Resolved) :
    checked w (inputs.asking verbose) = (checked w inputs).map (Resolved.asking verbose) := by
  have hfiles : (inputs.asking verbose).files = inputs.files := rfl
  unfold checked
  rw [hfiles]
  by_cases hempty : inputs.files.isEmpty
  · simp only [if_pos hempty]
    rfl
  · simp only [if_neg hempty]
    split <;> rfl

theorem withFiles_asking (w : Workspace) (a : InputArguments) (o : Options)
    (output : Option String) (verbose : Bool) (files : List String) :
    (a.asking verbose).withFiles w (o.asking verbose) output files =
      (a.withFiles w o output files).map (Resolved.asking verbose) := by
  unfold withFiles
  dsimp only [asking]
  cases a.charset with
  | none => exact checked_asking w verbose ⟨files, o, output⟩
  | some name =>
    dsimp only
    cases Charset.ofName? name with
    | none => rfl
    | some charset => exact checked_asking w verbose ⟨files, { o with charset }, output⟩

section

variable [Glob.Expander]

theorem withProject_asking (w : Workspace) (a : InputArguments) (verbose : Bool)
    (project : Option Project) : (a.asking verbose).withProject w project =
      (a.withProject w project).map (Resolved.asking verbose) := by
  have ho : project.elim (a.asking verbose).options (·.applyTo (a.asking verbose).options) =
      (project.elim a.options (·.applyTo a.options)).asking verbose := by
    cases project <;> rfl
  have hfiles : (a.asking verbose).chosenFiles w project = a.chosenFiles w project := by
    cases project <;> rfl
  rw [withProject_eq, withProject_eq, ho, hfiles]
  cases a.chosenFiles w project with
  | error report => rfl
  | ok files => exact withFiles_asking w a _ _ verbose files

variable [Project.Decoder]

theorem resolve_asking (w : Workspace) (a : InputArguments) (verbose : Bool) :
    (a.asking verbose).resolve w = (a.resolve w).map (Except.map (Resolved.asking verbose)) := by
  have hload : (a.asking verbose).loadProject w = a.loadProject w := rfl
  unfold resolve Logged.map
  rw [hload]
  cases (a.loadProject w).value with
  | error report => rfl
  | ok project =>
    have hproject := withProject_asking w a verbose project
    simp only [Except.bind, hproject]

theorem verbose_of_resolve (h : (a.resolve w).value = .ok inputs) :
    inputs.options.verbose = a.verbose := by
  have hasked : (a.resolve w).value = (a.resolve w).value.map (Resolved.asking a.verbose) :=
    congrArg Logged.value (resolve_asking w a a.verbose)
  rw [h] at hasked
  exact congrArg (fun inputs => inputs.options.verbose) (Except.ok.inj hasked)

theorem progress_resolve (w : Workspace) (a : InputArguments) :
    ∀ line ∈ (a.resolve w).log, line.progress = false := by
  unfold resolve Logged.map loadProject
  dsimp only
  split
  · exact List.forall_mem_nil _
  · split
    · exact List.forall_mem_singleton.mpr rfl
    · exact List.forall_mem_nil _

end

end InputArguments

namespace Asking

def withPlan (w : Workspace) (o : Options) (files : List String) (f : Plan → Performed) :
    Performed :=
  let planned := SourceBundle.Asking.planPaths w o files
  match planned.value with
  | .error e => ⟨.error (.withHint e), w.files, planned.log⟩
  | .ok plan =>
    let p := f plan
    { p with log := planned.log ++ p.log }

def writeFile (w : Workspace) (plan : Plan) (path : String) : Performed :=
  match makeParents w path with
  | (files, some report) => ⟨.error report, files, []⟩
  | (files, none) =>
    let outcome := SourceBundle.Asking.emit plan.options {} plan.sources
    match Workspace.writeFile ⟨files, w.current⟩ path outcome.sink.received with
    | .error fault =>
      ⟨.error ⟨"Failed to create output '" ++ path ++ "'", some fault.text⟩, files, []⟩
    | .ok files =>
      ⟨.ok [], files, outcome.log ++ [⟨.info, .combine,
        "Wrote " ++ toString plan.order.length ++ " file(s) to '" ++ path ++ "'", false⟩]⟩

section

variable [Project.Decoder] [Glob.Expander]

def combine (w : Workspace) (a : InputArguments) (output : Option String) (separator : Bool) :
    Performed :=
  withInputs w a fun inputs =>
    let o := { inputs.options with separator := inputs.options.separator || separator }
    withPlan w o inputs.files fun plan =>
      match output.or inputs.output with
      | some path => writeFile w plan path
      | none =>
        let outcome := SourceBundle.Asking.emit plan.options {} plan.sources
        ⟨.ok outcome.sink.received, w.files, outcome.log⟩

def order (w : Workspace) (a : InputArguments) (json : Bool) : Performed :=
  withInputs w a fun inputs =>
    withPlan w inputs.options inputs.files fun plan =>
      ⟨.ok (printed (if json then Listing.json plan else Listing.text plan)), w.files, []⟩

def tree (w : Workspace) (a : InputArguments) (depth : Option Nat) : Performed :=
  withInputs w a fun inputs =>
    let kept := SourceBundle.Asking.filterEntries w inputs.options inputs.files
    let found := SourceBundle.Asking.discover w inputs.options kept.value
    let result := match found.value with
      | .error e => .error (Report.withHint e)
      | .ok d =>
        let trees := Tree.forest d.registry depth d.entries
        .ok (printed (Tree.draw d.registry w.current trees))
    ⟨result, w.files, kept.log ++ found.log⟩

def perform [Reader] (w : Workspace) : Task → Performed
  | .combine a output separator => combine w a output separator
  | .order a json => order w a json
  | .tree a depth => tree w a depth
  | .completions shell => ⟨.ok (Reader.completions shell), w.files, []⟩

end

/-! ## The lines that are wanted -/

variable {w : Workspace} {a : InputArguments} {inputs : Resolved} {o : Options} {p : Plan}

theorem withPlan_eq {f g : Plan → Performed} (files : List String)
    (h : ∀ p, p.options = o → g p = (f p).shown o.verbose) :
    withPlan w o files g = (Command.withPlan w o files f).shown o.verbose := by
  unfold withPlan Command.withPlan
  rw [SourceBundle.Asking.planPaths_eq]
  dsimp only [Logged.shown]
  cases hp : (planPaths w o files).value with
  | error e => rfl
  | ok p =>
    simp only [h p (SourceBundle.Asking.options_of_plan hp), Performed.shown, Log.shown_append]

theorem writeFile_eq (w : Workspace) (p : Plan) (path : String) :
    writeFile w p path = (Command.writeFile w p path).shown p.options.verbose := by
  unfold writeFile Command.writeFile
  rcases makeParents w path with ⟨made, _ | report⟩
  · simp only [SourceBundle.Asking.emit_eq, Plan.writeTo, Emission.Outcome.shown]
    cases Workspace.writeFile ⟨made, w.current⟩ path
        (Emission.emit p.options {} p.sources).sink.received with
    | error fault => rfl
    | ok files =>
      simp only [Performed.shown, Log.shown_append, Log.shown_cons_of_not_progress]
      rfl
  · rfl

section

variable [Project.Decoder] [Glob.Expander]

theorem withInputs_eq {f g : Resolved → Performed}
    (h : ∀ inputs, inputs.options.verbose = a.verbose → g inputs = (f inputs).shown a.verbose) :
    withInputs w a g = (withInputs w a f).shown a.verbose := by
  have hlog : Log.shown a.verbose (a.resolve w).log = (a.resolve w).log :=
    Log.shown_of_not_progress (a.progress_resolve w)
  unfold withInputs
  dsimp only
  cases hi : (a.resolve w).value with
  | error report => simp only [Performed.shown, hlog]
  | ok inputs =>
    simp only [h inputs (InputArguments.verbose_of_resolve hi), Performed.shown, Log.shown_append,
      hlog]

theorem perform_eq [Reader] (w : Workspace) (t : Task) :
    perform w t = (Command.perform w t).shown t.verbose := by
  cases t with
  | combine a output separator =>
    refine withInputs_eq fun inputs hv => ?_
    rw [← hv]
    refine withPlan_eq inputs.files fun p hp => ?_
    cases output.or inputs.output with
    | some path =>
      dsimp only
      rw [writeFile_eq, hp]
    | none =>
      simp only [SourceBundle.Asking.emit_eq, Plan.writeTo, hp]
      rfl
  | order a json =>
    refine withInputs_eq fun inputs hv => ?_
    rw [← hv]
    exact withPlan_eq inputs.files fun p _ => rfl
  | tree a depth =>
    refine withInputs_eq fun inputs hv => ?_
    rw [← hv]
    have hlog := Log.shown_append inputs.options.verbose
      (Discovery.filterEntries w inputs.files).log
      (SourceBundle.discover w inputs.options.charset
        (Discovery.filterEntries w inputs.files).value).log
    simp only [SourceBundle.Asking.filterEntries_eq, SourceBundle.Asking.discover_eq]
    exact congrArg (Performed.mk _ _) hlog.symm
  | completions shell => rfl

end

end Asking

end SourceBundle.Command
