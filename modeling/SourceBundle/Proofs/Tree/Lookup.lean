import SourceBundle.Proofs.Registry
import SourceBundle.Proofs.Tree.Building

/-! # Growing trees with every record looked up

A tree shows a file by the path in its record, and grows by what the record declares. Here a number
without a record has neither, and a tree that comes upon one is not grown. Where all dependencies
are in range, every tree is.
-/
namespace SourceBundle.Tree

/-- One file after the other. -/
def growAll? (grow? : List SourceId → SourceId → Option (Tree × List SourceId))
    (expanded : List SourceId) : List SourceId → Option (List Tree × List SourceId)
  | [] => some ([], expanded)
  | file :: rest => do
    let (tree, expanded) ← grow? expanded file
    let (trees, expanded) ← growAll? grow? expanded rest
    return (tree :: trees, expanded)

/-- The record is looked up even for a leaf, which shows its path. -/
def grow? (r : Registry) :
    Nat → List SourceId → List SourceId → SourceId → Option (Tree × List SourceId)
  | room, branch, expanded, file => do
    let source ← r.source? file
    if file ∈ branch then return (leaf file .cycle, expanded)
    else if source.dependencies.isEmpty then return (leaf file .plain, expanded)
    else match room with
      | 0 => return (leaf file .plain, expanded)
      | room + 1 =>
        if file ∈ expanded then return (leaf file .seen, expanded)
        else
          let (children, expanded) ←
            growAll? (grow? r room (file :: branch)) (file :: expanded) source.dependencies
          return (node file .plain children, expanded)

def root? (r : Registry) (room : Nat) (expanded : List SourceId) (file : SourceId) :
    Option (Tree × List SourceId) := do
  let source ← r.source? file
  match room with
  | 0 => return (leaf file .plain, file :: expanded)
  | room + 1 =>
    let (children, expanded) ←
      growAll? (grow? r room [file]) (file :: expanded) source.dependencies
    return (node file .plain children, expanded)

def forest? (r : Registry) (depth : Option Nat) (files : List SourceId) : Option (List Tree) :=
  (growAll? (root? r (depth.getD (r.size + 1))) [] files).map Prod.fst

variable {r : Registry} {room : Nat} {branch expanded files : List SourceId} {file : SourceId}

theorem growAll?_eq {step? : List SourceId → SourceId → Option (Tree × List SourceId)}
    {step : List SourceId → SourceId → Tree × List SourceId}
    (h : ∀ stage, ∀ file ∈ files, step? stage file = some (step stage file)) :
    growAll? step? expanded files = some (growAll step expanded files) := by
  induction files generalizing expanded with
  | nil => rfl
  | cons file files ih =>
    have hrest (stage : List SourceId) :
        growAll? step? stage files = some (growAll step stage files) :=
      ih fun stage other hm => h stage other (List.mem_cons_of_mem file hm)
    simp only [growAll?, h expanded file List.mem_cons_self, Option.bind_eq_bind, Option.bind_some,
      hrest]
    rfl

/-- What a file declares are numbers of records, of which each can be shown. -/
theorem growAll?_dependencies (hr : r.InRange) {source : Source} (hs : r.source? file = some source)
    (h : ∀ stage d, d < r.size →
      grow? r room branch stage d = some (grow r room branch stage d)) :
    growAll? (grow? r room branch) expanded source.dependencies =
      some (growAll (grow r room branch) expanded source.dependencies) :=
  growAll?_eq fun stage d hd => h stage d (hr source (List.mem_of_getElem? hs) d hd)

theorem grow?_eq (hr : r.InRange) (hf : file < r.size) :
    grow? r room branch expanded file = some (grow r room branch expanded file) := by
  induction room generalizing branch expanded file with
  | zero =>
    obtain ⟨source, hs, hd⟩ := Registry.exists_source hf
    rw [grow?, hs, grow, hd]
    simp only [Option.bind_eq_bind, Option.bind_some]
    split_ifs <;> rfl
  | succ room ih =>
    obtain ⟨source, hs, hd⟩ := Registry.exists_source hf
    have hchildren :
        growAll? (grow? r room (file :: branch)) (file :: expanded) source.dependencies =
          some (growAll (grow r room (file :: branch)) (file :: expanded) source.dependencies) :=
      growAll?_dependencies hr hs fun stage d hlt => ih hlt
    rw [grow?, hs, grow, hd]
    simp only [Option.bind_eq_bind, Option.bind_some, hchildren]
    split_ifs <;> rfl

theorem root?_eq (hr : r.InRange) (hf : file < r.size) :
    root? r room expanded file = some (root r room expanded file) := by
  obtain ⟨source, hs, hd⟩ := Registry.exists_source hf
  cases room with
  | zero =>
    rw [root?, hs]
    rfl
  | succ room =>
    have hchildren : growAll? (grow? r room [file]) (file :: expanded) source.dependencies =
        some (growAll (grow r room [file]) (file :: expanded) source.dependencies) :=
      growAll?_dependencies hr hs fun stage d hlt => grow?_eq hr hlt
    simp only [root?, root, hs, hd, Option.bind_eq_bind, Option.bind_some, hchildren]
    rfl

theorem forest?_eq (hr : r.InRange) (hf : ∀ file ∈ files, file < r.size) (depth : Option Nat) :
    forest? r depth files = some (forest r depth files) := by
  rw [forest?, growAll?_eq fun stage file hm => root?_eq hr (hf file hm), forest_eq_growAll]
  rfl

end SourceBundle.Tree
