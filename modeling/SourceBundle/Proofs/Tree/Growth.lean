import Mathlib.Data.List.Perm.Subperm
import SourceBundle.Proofs.Graph.Cycle
import SourceBundle.Tree

/-! # How trees grow

The trees told by recursion on the levels that may still be shown, which are called room here. A file
below a root is shown in one of five ways. A branch holds different files, all of which declare
something, so it is never longer than the registry: with as many levels as there are files nothing
is cut off.
-/
namespace SourceBundle

theorem Registry.reaches_of_mem_dependencies {r : Registry} {i j : SourceId}
    (h : j ∈ r.dependencies i) : Relation.ReflTransGen r.Needs i j := by
  by_cases he : j = i
  · exact he ▸ .refl
  · exact .single ⟨h, he⟩

namespace Tree

/-- The tree of a file below the root, and the files expanded with it. -/
def grow (r : Registry) : Nat → List SourceId → List SourceId → SourceId → Tree × List SourceId
  | room, branch, expanded, file =>
    if file ∈ branch then (leaf file .cycle, expanded)
    else if (r.dependencies file).isEmpty then (leaf file .plain, expanded)
    else match room with
      | 0 => (leaf file .plain, expanded)
      | room + 1 =>
        if file ∈ expanded then (leaf file .seen, expanded)
        else
          let (children, expanded) :=
            growAll (grow r room (file :: branch)) (file :: expanded) (r.dependencies file)
          (node file .plain children, expanded)

/-- The tree of a root, which is always expanded. -/
def root (r : Registry) (room : Nat) (expanded : List SourceId) (file : SourceId) :
    Tree × List SourceId :=
  match room with
  | 0 => (leaf file .plain, file :: expanded)
  | room + 1 =>
    let (children, expanded) :=
      growAll (grow r room [file]) (file :: expanded) (r.dependencies file)
    (node file .plain children, expanded)

variable {r : Registry} {room n : Nat} {branch expanded : List SourceId} {file : SourceId}

/-! ## One file -/

theorem grow_of_mem_branch (h : file ∈ branch) :
    grow r room branch expanded file = (leaf file .cycle, expanded) := by
  rw [grow.eq_def]
  exact if_pos h

theorem grow_of_bare (h : file ∉ branch) (hd : r.dependencies file = []) :
    grow r room branch expanded file = (leaf file .plain, expanded) := by
  rw [grow.eq_def]
  simp only [if_neg h, hd, List.isEmpty_nil, if_true]

theorem grow_of_cut (h : file ∉ branch) (hd : r.dependencies file ≠ []) :
    grow r 0 branch expanded file = (leaf file .plain, expanded) := by
  rw [grow, if_neg h, if_neg (by simpa using hd)]

theorem grow_of_mem_expanded (h : file ∉ branch) (hd : r.dependencies file ≠ [])
    (he : file ∈ expanded) :
    grow r (room + 1) branch expanded file = (leaf file .seen, expanded) := by
  rw [grow, if_neg h, if_neg (by simpa using hd)]
  simp only [if_pos he]

/-- The trees below a file that is expanded, and the files expanded with them. -/
def expand (r : Registry) (room : Nat) (branch expanded : List SourceId) (file : SourceId) :
    List Tree × List SourceId :=
  growAll (grow r room (file :: branch)) (file :: expanded) (r.dependencies file)

theorem grow_of_new (h : file ∉ branch) (hd : r.dependencies file ≠ []) (he : file ∉ expanded) :
    grow r (room + 1) branch expanded file = (node file .plain
      (expand r room branch expanded file).1, (expand r room branch expanded file).2) := by
  rw [grow, if_neg h, if_neg (by simpa using hd)]
  simp only [if_neg he]
  rfl

/-- The ways in which a file below a root is shown. -/
inductive Shown (r : Registry) :
    Nat → List SourceId → List SourceId → SourceId → Tree × List SourceId → Prop
  | cycle (room : Nat) {branch : List SourceId} (expanded : List SourceId) {file : SourceId}
      (h : file ∈ branch) : Shown r room branch expanded file (leaf file .cycle, expanded)
  /-- The file declares nothing. -/
  | bare (room : Nat) {branch : List SourceId} (expanded : List SourceId) {file : SourceId}
      (h : file ∉ branch) (hd : r.dependencies file = []) :
    Shown r room branch expanded file (leaf file .plain, expanded)
  | cut {branch : List SourceId} (expanded : List SourceId) {file : SourceId}
      (h : file ∉ branch) (hd : r.dependencies file ≠ []) :
    Shown r 0 branch expanded file (leaf file .plain, expanded)
  | seen (room : Nat) {branch expanded : List SourceId} {file : SourceId}
      (h : file ∉ branch) (hd : r.dependencies file ≠ []) (he : file ∈ expanded) :
    Shown r (room + 1) branch expanded file (leaf file .seen, expanded)
  | new (room : Nat) {branch expanded : List SourceId} {file : SourceId}
      (h : file ∉ branch) (hd : r.dependencies file ≠ []) (he : file ∉ expanded) :
    Shown r (room + 1) branch expanded file (node file .plain
      (expand r room branch expanded file).1, (expand r room branch expanded file).2)

theorem shown_grow (r : Registry) (room : Nat) (branch expanded : List SourceId)
    (file : SourceId) :
    Shown r room branch expanded file (grow r room branch expanded file) := by
  by_cases hb : file ∈ branch
  · exact grow_of_mem_branch hb ▸ .cycle _ _ hb
  · by_cases hd : r.dependencies file = []
    · exact grow_of_bare hb hd ▸ .bare _ _ hb hd
    · cases room with
      | zero => exact grow_of_cut hb hd ▸ .cut _ hb hd
      | succ room =>
        by_cases he : file ∈ expanded
        · exact grow_of_mem_expanded hb hd he ▸ .seen _ hb hd he
        · exact grow_of_new hb hd he ▸ .new _ hb hd he

theorem root_succ : root r (room + 1) expanded file = (node file .plain
    (expand r room [] expanded file).1, (expand r room [] expanded file).2) := rfl

/-! ## One file after the other -/

/-- Each of the trees is what one of the files grows, at some stage. -/
theorem exists_of_mem_growAll {step : List SourceId → SourceId → Tree × List SourceId}
    {files : List SourceId} {tree : Tree} (h : tree ∈ (growAll step expanded files).1) :
    ∃ stage, ∃ file ∈ files, (step stage file).1 = tree := by
  induction files generalizing expanded with
  | nil => cases h
  | cons file files ih =>
    rcases List.mem_cons.mp h with rfl | h
    · exact ⟨expanded, file, List.mem_cons_self, rfl⟩
    · obtain ⟨stage, other, hm, he⟩ := ih h
      exact ⟨stage, other, List.mem_cons_of_mem file hm, he⟩

/-! ## Room -/

/-- A branch that leaves enough room below it: its files are different records, and the levels left
make up for those that it does not hold. -/
structure Roomy (r : Registry) (room : Nat) (branch : List SourceId) : Prop where
  nodup : branch.Nodup
  lt_size : ∀ file ∈ branch, file < r.size
  enough : r.size ≤ room + branch.length

theorem roomy_nil (h : r.size ≤ room) : Roomy r room [] :=
  ⟨List.nodup_nil, fun _ hm => absurd hm List.not_mem_nil, h⟩

/-- A new file of the registry finds room on the branch. -/
theorem Roomy.exists_succ (h : Roomy r room branch) (hb : file ∉ branch) (hf : file < r.size) :
    ∃ n, room = n + 1 ∧ Roomy r n (file :: branch) := by
  have hnodup : (file :: branch).Nodup := List.nodup_cons.mpr ⟨hb, h.nodup⟩
  have hlt : ∀ other ∈ file :: branch, other < r.size := List.forall_mem_cons.mpr ⟨hf, h.lt_size⟩
  have hle : (file :: branch).length ≤ (List.range r.size).length :=
    (List.subperm_of_subset hnodup fun other hm => List.mem_range.mpr (hlt other hm)).length_le
  have henough := h.enough
  rw [List.length_range, List.length_cons] at hle
  obtain ⟨n, rfl⟩ : ∃ n, room = n + 1 := Nat.exists_eq_succ_of_ne_zero (by omega)
  exact ⟨n, rfl, hnodup, hlt, by rw [List.length_cons]; omega⟩

/-- More room than enough makes no difference. -/
theorem Roomy.grow_eq (h : Roomy r room branch) (h' : Roomy r n branch) :
    grow r room branch = grow r n branch := by
  induction room generalizing n branch with
  | zero =>
    funext expanded file
    by_cases hb : file ∈ branch
    · rw [grow_of_mem_branch hb, grow_of_mem_branch hb]
    · by_cases hd : r.dependencies file = []
      · rw [grow_of_bare hb hd, grow_of_bare hb hd]
      · obtain ⟨_, hroom, -⟩ := h.exists_succ hb (Registry.lt_size_of_dependencies_ne_nil hd)
        cases hroom
  | succ room ih =>
    funext expanded file
    by_cases hb : file ∈ branch
    · rw [grow_of_mem_branch hb, grow_of_mem_branch hb]
    · by_cases hd : r.dependencies file = []
      · rw [grow_of_bare hb hd, grow_of_bare hb hd]
      · have hlt := Registry.lt_size_of_dependencies_ne_nil hd
        obtain ⟨m, hm, hroom⟩ := h.exists_succ hb hlt
        obtain ⟨n, rfl, hn⟩ := h'.exists_succ hb hlt
        obtain rfl := Nat.succ.inj hm
        by_cases he : file ∈ expanded
        · rw [grow_of_mem_expanded hb hd he, grow_of_mem_expanded hb hd he]
        · rw [grow_of_new hb hd he, grow_of_new hb hd he, expand, expand, ih hroom hn]

theorem root_eq (h : r.size < n) : root r n = root r (r.size + 1) := by
  funext expanded file
  by_cases hd : r.dependencies file = []
  · obtain ⟨m, rfl⟩ := Nat.exists_eq_succ_of_ne_zero (Nat.ne_zero_of_lt h)
    rw [root_succ, root_succ, expand, expand, hd]
    rfl
  · have hlt := Registry.lt_size_of_dependencies_ne_nil hd
    obtain ⟨m, rfl, hm⟩ := (roomy_nil h.le).exists_succ List.not_mem_nil hlt
    obtain ⟨k, hk, hroom⟩ := (roomy_nil r.size.le_succ).exists_succ List.not_mem_nil hlt
    obtain rfl := Nat.succ.inj hk
    rw [root_succ, root_succ, expand, expand, hm.grow_eq hroom]

end Tree

end SourceBundle
