import SourceBundle.Proofs.Command.Inputs
import SourceBundle.Proofs.Glob.Steady

/-! # The inputs of a run that is repeated

A run may replace what one file holds. Unless that is the project file, the next run is given the
same inputs.
-/
namespace SourceBundle

open FileSystem (Rewritten)

variable {v w : Workspace} {gs : FileSystem} {l : Location} {p : Project} {path : String}

section

variable [Glob.Expander]

theorem Project.resolveInputs_of_alike (hs : Glob.Steady) (h : v.Alike w) (p : Project) :
    p.resolveInputs v = p.resolveInputs w := by
  have hinput : ∀ input, resolveInput v p input = resolveInput w p input := by
    intro input
    unfold resolveInput
    simp only [hs v w h, h.isFile]
  rw [resolveInputs, resolveInputs, funext hinput]

namespace Command.InputArguments

omit [Glob.Expander] in
theorem withFiles_of_alike (h : v.Alike w) (a : InputArguments) (o : Options)
    (output : Option String) (files : List String) :
    a.withFiles v o output files = a.withFiles w o output files := by
  have hchecked : ∀ inputs, checked v inputs = checked w inputs := by
    intro inputs
    unfold checked
    simp only [h.isFile]
  unfold withFiles
  simp only [hchecked]

theorem withProject_of_alike (hs : Glob.Steady) (h : v.Alike w) (a : InputArguments)
    (project : Option Project) : a.withProject v project = a.withProject w project := by
  have hchosen : a.chosenFiles v project = a.chosenFiles w project := by
    unfold chosenFiles
    simp only [Project.resolveInputs_of_alike hs h]
  rw [withProject_eq, withProject_eq, hchosen, funext (withFiles_of_alike h a _ _)]

end Command.InputArguments

end

section

variable [Project.Decoder]

theorem Project.ofFile_of_rewritten (h : Rewritten l w.files gs) (hp : ofFile w path = .ok p)
    (hne : w.canonical path ≠ .ok l) : ofFile ⟨gs, w.current⟩ path = .ok p := by
  have htext : ∀ text, w.readText path = .ok text →
      Workspace.readText ⟨gs, w.current⟩ path = .ok text := by
    intro text ht
    obtain ⟨octets, hr, hd⟩ := bind_ok ht
    rw [Workspace.readText, Workspace.read_of_rewritten h hne hr]
    exact hd
  unfold ofFile at hp ⊢
  split at hp
  · cases hp
  · rename_i text ht
    rw [htext text ht]
    exact hp

namespace Command.InputArguments

/-- The output is no file that the inputs come from: no project is loaded, or its file lies
elsewhere. -/
def Apart (w : Workspace) (a : InputArguments) (project : Option Project) (l : Location) : Prop :=
  project = none ∨ w.canonical (a.config.getD Project.defaultFile) ≠ .ok l

variable {a : InputArguments} {project : Option Project}

theorem loadProject_of_rewritten (h : Rewritten l w.files gs)
    (hp : (a.loadProject w).value = .ok project) (ha : Apart w a project l) :
    a.loadProject ⟨gs, w.current⟩ = a.loadProject w := by
  have halike := @Workspace.alike_of_extends w.files gs w.current h.forth h.back
  have hload : ∀ path, a.config.getD Project.defaultFile = path →
      ((Project.ofFile w path).map some).mapError Report.ofError = .ok project →
      Project.ofFile ⟨gs, w.current⟩ path = Project.ofFile w path := by
    intro path hpath hvalue
    obtain ⟨q, hq, rfl⟩ := map_ok (mapError_ok hvalue)
    rcases ha with hnone | hne
    · cases hnone
    · rw [hq, Project.ofFile_of_rewritten h hq (hpath ▸ hne)]
  unfold loadProject at hp ⊢
  dsimp only at hp ⊢
  split
  · rename_i path hc
    rw [hc] at hp
    rw [halike.exists?]
    dsimp only at hp
    split at hp
    · rw [hload path (by rw [hc]; rfl) hp]
    · cases hp
  · rename_i hc
    rw [hc] at hp
    rw [halike.isFile]
    dsimp only at hp
    split at hp
    · rw [hload _ (by rw [hc]; rfl) hp]
    · rename_i hnone
      rw [if_neg hnone, if_neg hnone]

variable [Glob.Expander] {inputs : Resolved}

/-- The same inputs are resolved again. -/
theorem resolve_of_rewritten (hs : Glob.Steady) (h : Rewritten l w.files gs)
    (hp : (a.loadProject w).value = .ok project) (ha : Apart w a project l) :
    a.resolve ⟨gs, w.current⟩ = a.resolve w := by
  have halike := @Workspace.alike_of_extends w.files gs w.current h.forth h.back
  rw [resolve, resolve, loadProject_of_rewritten h hp ha,
    funext (withProject_of_alike hs halike a)]

end Command.InputArguments

end

end SourceBundle
