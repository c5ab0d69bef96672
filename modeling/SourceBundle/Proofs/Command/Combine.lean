import SourceBundle.Command.Run
import SourceBundle.Proofs.Command.Inputs
import SourceBundle.Proofs.FileSystem.Create
import SourceBundle.Proofs.Plan.Order

/-! # The files that a combine run leaves

Nothing is made before there is a plan, and the plan holds all contents. So a run that cannot be
planned leaves every file as it was. One that succeeds leaves, where the output path leads, what it
would have printed, even where an input was.
-/
namespace SourceBundle

/-- The paths that are made, where they are missing, before a file is put at a path. -/
def Path.above (path : String) : List String := (Path.parent? path).elim [] Path.ancestors

namespace Command

open Text.Utf8 (Octets)

variable {w : Workspace} {a : InputArguments} {output : Option String} {separator : Bool}
  {inputs : Resolved} {path : String} {plan : Plan} {octets : Octets}

/-! ## Plans and outputs -/

theorem withPlan_error {o : Options} {files : List String} {f : Plan → Performed} {e : Error}
    (h : (planPaths w o files).value = .error e) :
    (withPlan w o files f).result = .error (.withHint e) ∧
      (withPlan w o files f).files = w.files := by
  simp only [withPlan, h, and_self]

theorem withPlan_ok {o : Options} {files : List String} {f : Plan → Performed}
    (h : (planPaths w o files).value = .ok plan) :
    (withPlan w o files f).result = (f plan).result ∧
      (withPlan w o files f).files = (f plan).files := by
  simp only [withPlan, h, and_self]

theorem made_makeParents (w : Workspace) (path : String) :
    w.Made (Path.above path) (makeParents w path).1 := by
  unfold makeParents Path.above
  split
  · exact w.made_none _
  · exact w.made_none _
  · rename_i parent hne hparent
    rw [hparent]
    exact w.made_createEach _

/-- The octets lie where a path leads, and led before if it led anywhere. Besides there are at most
new directories above the path. -/
structure Written (w : Workspace) (path : String) (octets : Octets) (files : FileSystem) : Prop where
  read : Workspace.read ⟨files, w.current⟩ path = .ok octets
  others : ∃ l made, Workspace.canonical ⟨files, w.current⟩ path = .ok l ∧
    (∀ m, w.canonical path = .ok m → m = l) ∧ w.Made (Path.above path) made ∧
    ∀ m, m ≠ l → files.find? m = made.find? m

theorem written_of_ok {out : Octets} (h : (writeFile w plan path).result = .ok out) :
    out = [] ∧ Written w path (plan.writeTo {}).sink.received (writeFile w plan path).files := by
  have hmade := made_makeParents w path
  unfold writeFile at h ⊢
  split
  · rename_i made report hp
    rw [hp] at h
    cases h
  · rename_i made hp
    rw [hp] at h hmade
    simp only at h ⊢
    split at h
    · cases h
    · rename_i files hf
      cases h
      obtain ⟨l, hput⟩ := Workspace.exists_put hf
      refine ⟨rfl, hput.read, l, made, hput.canonical, fun m hm => ?_, hmade, hput.others⟩
      exact hput.same m (Workspace.canonical_mono hm hmade.grows.extends)

/-- The options of a combine run. -/
def Resolved.combining (inputs : Resolved) (separator : Bool) : Options :=
  { inputs.options with separator := inputs.options.separator || separator }

section Runs

variable [Project.Decoder] [Glob.Expander]

/-- A combine run whose output goes where `place` says, or is printed. -/
def combineTo (w : Workspace) (a : InputArguments) (separator : Bool)
    (place : Resolved → Option String) : Performed :=
  withInputs w a fun inputs =>
    withPlan w (inputs.combining separator) inputs.files fun plan =>
      match place inputs with
      | some path => writeFile w plan path
      | none =>
        let outcome := plan.writeTo {}
        ⟨.ok outcome.sink.received, w.files, outcome.log⟩

theorem combine_eq_combineTo (w : Workspace) (a : InputArguments) (output : Option String)
    (separator : Bool) :
    combine w a output separator =
      combineTo w a separator fun inputs => output.or inputs.output := rfl

/-! ## Inputs -/

theorem withInputs_error {f : Resolved → Performed} {report : Report}
    (h : (a.resolve w).value = .error report) :
    (withInputs w a f).result = .error report ∧ (withInputs w a f).files = w.files := by
  simp only [withInputs, h, and_self]

theorem withInputs_ok {f : Resolved → Performed} (h : (a.resolve w).value = .ok inputs) :
    (withInputs w a f).result = (f inputs).result ∧
      (withInputs w a f).files = (f inputs).files := by
  simp only [withInputs, h, and_self]

/-! ## Combine runs -/

theorem run_of_request [Reader] (w : Workspace) (environment : Environment) {args : List String}
    {r : Request} (h : Reader.read environment.config args = .ok r) :
    (run w environment args).files = (perform w r.task).files ∧
      (∀ report, (perform w r.task).result = .error report → (run w environment args).code = 1) ∧
      ∀ out, (perform w r.task).result = .ok out ↔
        (run w environment args).code = 0 ∧ (run w environment args).output = out := by
  simp only [run, h, execute]
  cases (perform w r.task).result <;> simp

theorem combineTo_ok (place : Resolved → Option String) (hi : (a.resolve w).value = .ok inputs)
    (hp : (planPaths w (inputs.combining separator) inputs.files).value = .ok plan) :
    (combineTo w a separator place).result = (match place inputs with
        | some path => (writeFile w plan path).result
        | none => .ok (plan.writeTo {}).sink.received) ∧
      (combineTo w a separator place).files = match place inputs with
        | some path => (writeFile w plan path).files
        | none => w.files := by
  obtain ⟨hresult, hfiles⟩ := withInputs_ok hi
  obtain ⟨hresult', hfiles'⟩ := withPlan_ok hp
  rw [combineTo, hresult, hfiles, hresult', hfiles']
  cases place inputs <;> exact ⟨rfl, rfl⟩

/-- Neither the inputs nor the plan of a run that succeeds are in error. -/
theorem exists_plan_of_ok {place : Resolved → Option String} {out : Octets}
    (h : (combineTo w a separator place).result = .ok out) :
    ∃ inputs plan, (a.resolve w).value = .ok inputs ∧
      (planPaths w (inputs.combining separator) inputs.files).value = .ok plan := by
  cases hi : (a.resolve w).value with
  | error report =>
    rw [combineTo, (withInputs_error hi).1] at h
    cases h
  | ok inputs =>
    cases hp : (planPaths w (inputs.combining separator) inputs.files).value with
    | error e =>
      rw [combineTo, (withInputs_ok hi).1, (withPlan_error hp).1] at h
      cases h
    | ok plan => exact ⟨inputs, plan, rfl, hp⟩

/-- A run that fails before there is a plan leaves the files as they were. One that succeeds leaves
what the same run without an output path prints at the output path, and else at most new
directories above it. -/
theorem combine_files [Reader] (w : Workspace) (environment : Environment) (args : List String)
    (r : Request) (a : InputArguments) (output : Option String) (separator : Bool)
    (hr : Reader.read environment.config args = .ok r)
    (ht : r.task = .combine a output separator) :
    (∀ report, (a.resolve w).value = .error report →
      (run w environment args).code = 1 ∧ (run w environment args).files = w.files) ∧
    (∀ inputs e, (a.resolve w).value = .ok inputs →
      (planPaths w (inputs.combining separator) inputs.files).value = .error e →
      (run w environment args).code = 1 ∧ (run w environment args).files = w.files) ∧
    ((run w environment args).code = 0 → ∃ project inputs octets,
      (a.loadProject w).value = .ok project ∧ (a.resolve w).value = .ok inputs ∧
      inputs.output = project.bind (fun p => p.output.map (Path.join a.projectDirectory)) ∧
      (combineTo w a separator fun _ => none).result = .ok octets ∧
      (∀ path, output.or inputs.output = some path →
        (run w environment args).output = [] ∧
          Written w path octets (run w environment args).files) ∧
      (output.or inputs.output = none →
        (run w environment args).output = octets ∧ (run w environment args).files = w.files)) := by
  obtain ⟨hfiles, hfail, hok⟩ := run_of_request w environment hr
  have hperform : perform w r.task =
      combineTo w a separator fun inputs => output.or inputs.output := by
    rw [ht, perform, combine_eq_combineTo]
  rw [hperform] at hfiles hfail hok
  refine ⟨fun report hi => ?_, fun inputs e hi hp => ?_, fun hcode => ?_⟩
  · obtain ⟨hresult, hsame⟩ := withInputs_error hi
    exact ⟨hfail report hresult, hfiles.trans hsame⟩
  · obtain ⟨hresult, hsame⟩ := withInputs_ok hi
    obtain ⟨hresult', hsame'⟩ := withPlan_error hp
    exact ⟨hfail _ (hresult.trans hresult'), hfiles.trans (hsame.trans hsame')⟩
  · have hout := (hok _).mpr ⟨hcode, rfl⟩
    obtain ⟨inputs, plan, hi, hp⟩ := exists_plan_of_ok hout
    obtain ⟨hresult, hleft⟩ := combineTo_ok (fun inputs => output.or inputs.output) hi hp
    obtain ⟨project, hproject, houtput⟩ := InputArguments.output_of_resolve hi
    refine ⟨project, inputs, (plan.writeTo {}).sink.received, hproject, hi, houtput,
      (combineTo_ok _ hi hp).1, fun path hpath => ?_, fun hnone => ?_⟩
    · simp only [hpath] at hresult hleft
      rw [hfiles, hleft]
      exact written_of_ok (hresult.symm.trans hout)
    · simp only [hnone] at hresult hleft
      exact ⟨Except.ok.inj (hout.symm.trans hresult), hfiles.trans hleft⟩

end Runs

/-! ## An output in the place of an input -/

theorem resolve_letters : (InputArguments.resolve Discovery.letters { files := ["a"] }).value =
    .ok ⟨["a"], {}, none⟩ := by
  have hfile : Discovery.letters.isFile "a" = true := by cbv
  have hproject : InputArguments.withProject Discovery.letters { files := ["a"] } none =
      .ok ⟨["a"], {}, none⟩ := by
    simp [InputArguments.withProject, InputArguments.options, hfile, bind, Except.bind, pure,
      Except.pure]
  exact hproject

theorem planPaths_letters :
    (planPaths Discovery.letters {} ["a"]).value = .ok Plan.lettersPlan := by
  have hkept : (Discovery.filterEntries Discovery.letters ["a"]).value = ["a"] := by cbv
  rw [planPaths, hkept]
  exact Plan.plan_letters

theorem writeFile_letters :
    (writeFile Discovery.letters Plan.lettersPlan "a").result = .ok [] := by
  have hparents : makeParents Discovery.letters "a" = (Discovery.letters.files, none) := by cbv
  have hcreate : Workspace.fileToCreate ⟨Discovery.letters.files, Discovery.letters.current⟩ "a" =
      .ok ["a"] := by
    cbv
  simp only [writeFile, hparents, Workspace.writeFile, hcreate]
  rfl

/-! ## A project with an output -/

/-- A project in a directory that lists one file and names an output. -/
def shelf : Workspace where
  current := []
  files := ⟨[
    (["d"], .directory),
    (["d", "p"], .file (Text.Utf8.encode "inputs: [a]\noutput: b\n".toList)),
    (["d", "a"], .file (Text.Utf8.encode "x".toList))]⟩

def shelfProject : Project := { inputs := ["a"], output := some "b", baseDirectory := "d" }

def shelfPlan : Plan where
  discovered := ⟨⟨[⟨["d", "a"], some ['x'], []⟩], by decide⟩, [0]⟩
  order := [0]
  options := {}

theorem loadProject_shelf :
    (InputArguments.loadProject shelf { config := some "d/p" }).value =
      .ok (some shelfProject) := by
  have htext : shelf.readText "d/p" = .ok "inputs: [a]\noutput: b\n".toList := by cbv
  have hparse : Project.parse "inputs: [a]\noutput: b\n".toList =
      .ok { inputs := ["a"], output := some "b" } := by
    decide +kernel
  have hfile : Project.ofFile shelf "d/p" = .ok shelfProject := by
    rw [Project.ofFile, htext]
    dsimp only
    rw [hparse]
    rfl
  have hexists : shelf.exists? "d/p" = true := by cbv
  simp only [InputArguments.loadProject, hexists, hfile, if_true]
  rfl

theorem resolve_shelf : (InputArguments.resolve shelf { config := some "d/p" }).value =
    .ok ⟨["d/a"], {}, some "d/b"⟩ := by
  have hfile : shelf.isFile "d/a" = true := by cbv
  have hfiles : shelfProject.resolveInputs shelf = .ok ["d/a"] := by cbv
  have hwith : InputArguments.withProject shelf { config := some "d/p" } (some shelfProject) =
      .ok ⟨["d/a"], {}, some "d/b"⟩ := by
    have hchecked : InputArguments.checked shelf ⟨["d/a"], {}, some "d/b"⟩ =
        .ok ⟨["d/a"], {}, some "d/b"⟩ :=
      InputArguments.checked_eq_ok_iff.mpr ⟨by simp [hfile], rfl⟩
    rw [InputArguments.withProject_eq]
    simp only [InputArguments.chosenFiles, hfiles]
    exact hchecked
  simp only [InputArguments.resolve, Logged.map, loadProject_shelf]
  exact hwith

theorem planPaths_shelf : (planPaths shelf {} ["d/a"]).value = .ok shelfPlan := by
  have hkept : (Discovery.filterEntries shelf ["d/a"]).value = ["d/a"] := by cbv
  have hentries : Discovery.enterAll shelf .empty ["d/a"] =
      .ok (⟨[{ location := ["d", "a"] }], by decide⟩, [0]) := by
    cbv
  have hvisit : (Discovery.visit shelf .utf8 ⟨[{ location := ["d", "a"] }], by decide⟩
      0 { location := ["d", "a"] }).value = .ok (shelfPlan.registry, []) := by
    cbv
  have hfound : (discover shelf .utf8 ["d/a"]).value = .ok shelfPlan.discovered :=
    Discovery.discover_of_advances hentries (.single (.read _ 0 [] _ _ _ _ rfl rfl hvisit))
  have harrange : (Plan.arrange {} shelfPlan.discovered).value = .ok shelfPlan := by cbv
  rw [planPaths, hkept]
  unfold plan Logged.andThen
  rw [hfound]
  exact harrange

theorem writeFile_shelf : (writeFile shelf shelfPlan "d/b").result = .ok [] := by
  have hparents : makeParents shelf "d/b" = (shelf.files, none) := by cbv
  have hcreate : Workspace.fileToCreate ⟨shelf.files, shelf.current⟩ "d/b" = .ok ["d", "b"] := by
    cbv
  simp only [writeFile, hparents, Workspace.writeFile, hcreate]
  rfl

/-- An output takes the place of the input that needs the others, and the output of a project is
put in the directory of its file. -/
theorem letters_combined :
    (Reader.read none ["combine", "-o", "a", "a"] =
        .ok ⟨"warn", .combine { files := ["a"] } (some "a") false⟩ ∧
      (run Discovery.letters {} ["combine", "-o", "a", "a"]).code = 0 ∧
      Workspace.read ⟨(run Discovery.letters {} ["combine", "-o", "a", "a"]).files, []⟩ "a" =
        .ok (Text.Utf8.encode "zyx".toList)) ∧
    (Reader.read none ["combine", "-c", "d/p"] =
        .ok ⟨"warn", .combine { config := some "d/p" } none false⟩ ∧
      (run shelf {} ["combine", "-c", "d/p"]).code = 0 ∧
      Workspace.read ⟨(run shelf {} ["combine", "-c", "d/p"]).files, []⟩ "d/b" =
        .ok (Text.Utf8.encode "x".toList)) := by
  constructor
  · have hr : Reader.read none ["combine", "-o", "a", "a"] =
        .ok ⟨"warn", .combine { files := ["a"] } (some "a") false⟩ := by
      cbv
    have hresult := (combineTo_ok (fun inputs => (some "a").or inputs.output) resolve_letters
      planPaths_letters).1.trans writeFile_letters
    obtain ⟨-, -, hok⟩ := run_of_request Discovery.letters {} hr
    obtain ⟨hcode, -⟩ := (hok []).mp hresult
    obtain ⟨-, -, hfiles⟩ := combine_files Discovery.letters {} ["combine", "-o", "a", "a"] _
      { files := ["a"] } (some "a") false hr rfl
    obtain ⟨-, inputs, octets, -, -, -, hprinted, hpath, -⟩ := hfiles hcode
    have hoctets : octets = (Plan.lettersPlan.writeTo {}).sink.received :=
      Except.ok.inj (hprinted.symm.trans (combineTo_ok _ resolve_letters planPaths_letters).1)
    have hbytes : (Plan.lettersPlan.writeTo {}).sink.received =
        Text.Utf8.encode "zyx".toList := by
      decide
    refine ⟨hr, hcode, (hpath "a" rfl).2.read.trans ?_⟩
    rw [hoctets, hbytes]
  · have hr : Reader.read none ["combine", "-c", "d/p"] =
        .ok ⟨"warn", .combine { config := some "d/p" } none false⟩ := by
      cbv
    have hresult := (combineTo_ok (fun inputs => none.or inputs.output) resolve_shelf
      planPaths_shelf).1.trans writeFile_shelf
    obtain ⟨-, -, hok⟩ := run_of_request shelf {} hr
    obtain ⟨hcode, -⟩ := (hok []).mp hresult
    obtain ⟨-, -, hfiles⟩ := combine_files shelf {} ["combine", "-c", "d/p"] _
      { config := some "d/p" } none false hr rfl
    obtain ⟨project, inputs, octets, hproject, -, houtput, hprinted, hpath, -⟩ := hfiles hcode
    cases loadProject_shelf.symm.trans hproject
    have hoctets : octets = (shelfPlan.writeTo {}).sink.received :=
      Except.ok.inj (hprinted.symm.trans (combineTo_ok _ resolve_shelf planPaths_shelf).1)
    have hbytes : (shelfPlan.writeTo {}).sink.received = Text.Utf8.encode "x".toList := by decide
    have hplace : none.or inputs.output = some "d/b" := by
      rw [houtput]
      decide
    refine ⟨hr, hcode, (hpath "d/b" hplace).2.read.trans ?_⟩
    rw [hoctets, hbytes]

end Command

end SourceBundle
