import SourceBundle.Command.Inputs
import SourceBundle.Proofs.Outcome

/-! # The inputs of a run, step by step

A project is loaded, the files are chosen, the charset is settled, and then there must be files. The
output comes from the project alone.
-/
namespace SourceBundle.Command.InputArguments

variable {w : Workspace} {a : InputArguments} {inputs : Resolved} {o : Options}
  {output : Option String} {files : List String}

/-- The directory of the project file that counts. -/
def projectDirectory (a : InputArguments) : String :=
  (Path.parent? (a.config.getD Project.defaultFile)).getD ""

/-- There must be files, and one of them at least must exist. -/
def checked (w : Workspace) (inputs : Resolved) : Except Report Resolved := do
  if inputs.files.isEmpty then throw .noInputs
  if !inputs.files.any (w.isFile ·) then throw (.noExistingInputs inputs.files.length)
  return inputs

/-- What is left to do once the files are known. -/
def withFiles (w : Workspace) (a : InputArguments) (o : Options) (output : Option String)
    (files : List String) : Except Report Resolved := do
  let charset ← match a.charset with
    | some name =>
      match Charset.ofName? name with
      | some charset => .ok charset
      | none => .error (.withHint (.unsupportedCharset name))
    | none => .ok o.charset
  checked w ⟨files, { o with charset }, output⟩

theorem checked_eq_ok_iff {kept : Resolved} : checked w kept = .ok inputs ↔
    kept.files.any (w.isFile ·) = true ∧ inputs = kept := by
  unfold checked
  by_cases hempty : kept.files.isEmpty = true
  · rw [if_pos hempty, List.isEmpty_iff.mp hempty]
    exact iff_of_false nofun fun h => Bool.false_ne_true h.1
  · rw [if_neg hempty]
    by_cases hany : kept.files.any (w.isFile ·) = true
    · rw [hany, Bool.not_true, if_neg Bool.false_ne_true]
      exact ⟨fun h => ⟨rfl, (Except.ok.inj h).symm⟩, fun h => congrArg Except.ok h.2.symm⟩
    · rw [Bool.eq_false_iff.mpr hany, Bool.not_false, if_pos rfl]
      exact iff_of_false nofun fun h => Bool.false_ne_true h.1

theorem output_of_withFiles (h : a.withFiles w o output files = .ok inputs) :
    inputs.output = output := by
  have hchecked : ∀ charset, checked w ⟨files, { o with charset }, output⟩ = .ok inputs →
      inputs.output = output :=
    fun charset hc => congrArg Resolved.output (checked_eq_ok_iff.mp hc).2
  unfold withFiles at h
  split at h
  · split at h
    · exact hchecked _ h
    · cases h
  · exact hchecked _ h

variable [Glob.Expander]

/-- The files of a run, those of the project where none are given. -/
def chosenFiles (w : Workspace) (a : InputArguments) : Option Project → Except Report (List String)
  | some p => if a.files.isEmpty then (p.resolveInputs w).mapError Report.ofError else .ok a.files
  | none => .ok a.files

theorem withProject_eq (w : Workspace) (a : InputArguments) (project : Option Project) :
    a.withProject w project = (a.chosenFiles w project).bind
      (a.withFiles w (project.elim a.options (·.applyTo a.options))
        (project.bind Project.resolvedOutput)) := by
  cases project with
  | none => rfl
  | some p =>
    unfold withProject chosenFiles
    dsimp only
    split <;> rfl

theorem output_of_withProject {project : Option Project}
    (h : a.withProject w project = .ok inputs) :
    inputs.output = project.bind Project.resolvedOutput := by
  rw [withProject_eq] at h
  obtain ⟨files, -, h⟩ := bind_ok h
  exact output_of_withFiles h

variable [Project.Decoder]

omit [Glob.Expander] in
theorem baseDirectory_of_ofFile {path : String} {p : Project} (h : Project.ofFile w path = .ok p) :
    p.baseDirectory = (Path.parent? path).getD "" := by
  unfold Project.ofFile at h
  split at h
  · cases h
  · obtain ⟨q, -, h⟩ := bind_ok h
    cases h
    rfl

omit [Glob.Expander] in
/-- A project is seen from the directory of its file. -/
theorem baseDirectory_of_loadProject {p : Project} (h : (a.loadProject w).value = .ok (some p)) :
    p.baseDirectory = a.projectDirectory := by
  have hload : ∀ path, ((Project.ofFile w path).map some).mapError Report.ofError = .ok (some p) →
      p.baseDirectory = (Path.parent? path).getD "" := by
    intro path hp
    obtain ⟨q, hq, heq⟩ := map_ok (mapError_ok hp)
    cases heq
    exact baseDirectory_of_ofFile hq
  unfold loadProject at h
  unfold projectDirectory
  dsimp only at h
  split at h
  · rename_i path hc
    rw [hc]
    dsimp only at h
    split at h
    · exact hload path h
    · cases h
  · rename_i hc
    rw [hc]
    split at h
    · exact hload _ h
    · cases h

theorem exists_of_resolve (h : (a.resolve w).value = .ok inputs) :
    ∃ project, (a.loadProject w).value = .ok project ∧ a.withProject w project = .ok inputs := by
  unfold resolve Logged.map at h
  exact bind_ok h

/-- The output that the inputs name is that of the project, in the directory of its file. -/
theorem output_of_resolve (h : (a.resolve w).value = .ok inputs) :
    ∃ project, (a.loadProject w).value = .ok project ∧ inputs.output =
      project.bind fun p => p.output.map (Path.join a.projectDirectory) := by
  obtain ⟨project, hproject, hwith⟩ := exists_of_resolve h
  refine ⟨project, hproject, (output_of_withProject hwith).trans ?_⟩
  refine Option.bind_congr fun p hp => ?_
  subst hp
  rw [Project.resolvedOutput, baseDirectory_of_loadProject hproject]

end SourceBundle.Command.InputArguments
