import Mathlib.Algebra.Ring.Nat
import SourceBundle.Proofs.Tree.Grown

/-! # What is expanded

A node with anything below it carries no mark and shows all that its file declares, in order. Below
the roots no file is expanded twice, and the files expanded so far are remembered. A node is shown
once for each declaration of an expanded file.
-/
namespace SourceBundle.Tree

/-- A node without a mark that shows what its file declares, in the order of declaration. -/
structure Complete (r : Registry) (tree : Tree) : Prop where
  plain : tree.mark = .plain
  shows : tree.children.map file = r.dependencies tree.file

/-- How many dependencies the files of a list declare, repeats and self references counted. -/
def declared (r : Registry) (files : List SourceId) : Nat :=
  (files.map fun v => (r.dependencies v).length).sum

variable {r : Registry} {limit : Option Nat} {branch expanded files after : List SourceId}
  {file v : SourceId} {trees children : List Tree} {tree : Tree}

theorem Complete.ne_nil (h : Complete r tree) (hd : r.dependencies tree.file ≠ []) :
    tree.children ≠ [] := by
  intro hn
  have hshows := h.shows
  rw [hn] at hshows
  exact hd hshows.symm

theorem declared_append (files others : List SourceId) :
    declared r (files ++ others) = declared r files + declared r others := by
  rw [declared, List.map_append, List.sum_append, declared, declared]

theorem declared_cons (file : SourceId) (files : List SourceId) :
    declared r (file :: files) = (r.dependencies file).length + declared r files := by
  rw [declared, List.map_cons, List.sum_cons, declared]

theorem expansions_leaf (mark : Mark) :
    expansions (leaf file mark :: trees) = expansions trees :=
  expansions_cons_of_leaf rfl trees

/-! ## Below a branch -/

theorem Grows.map_file (h : Grows r limit branch expanded files trees after) :
    trees.map Tree.file = files := by
  induction h with
  | nil => rfl
  | leaf _ _ ih => exact congrArg _ ih
  | expand _ _ _ _ ih => exact congrArg _ ih

theorem Grows.ne_nil (h : Grows r limit branch expanded files trees after) (hf : files ≠ []) :
    trees ≠ [] := by
  rintro rfl
  exact hf h.map_file.symm

theorem expansions_expand (hd : r.dependencies file ≠ [])
    (hc : Grows r limit branch expanded (r.dependencies file) children after) (trees : List Tree) :
    expansions (node file .plain children :: trees) =
      file :: (expansions children ++ expansions trees) := by
  have hne : (node file .plain children).children ≠ [] := hc.ne_nil hd
  exact expansions_cons_of_expanded hne trees

theorem Grows.complete (h : Grows r limit branch expanded files trees after)
    (ht : tree ∈ drawn trees) (hc : tree.children ≠ []) : Complete r tree := by
  induction h with
  | nil => simp at ht
  | leaf _ _ ih =>
    rw [drawn_leaf] at ht
    rcases List.mem_cons.mp ht with rfl | ht
    · exact absurd rfl hc
    · exact ih ht
  | expand _ hchildren _ ihc ihr =>
    rw [drawn] at ht
    rcases List.mem_cons.mp ht with rfl | ht
    · exact ⟨rfl, hchildren.map_file⟩
    · exact (List.mem_append.mp ht).elim ihc ihr

/-- The files that are expanded are added to those expanded before. -/
theorem Grows.perm (h : Grows r limit branch expanded files trees after) :
    after.Perm (expansions trees ++ expanded) := by
  induction h with
  | nil => rw [expansions_nil, List.nil_append]
  | leaf _ _ ih => rwa [expansions_leaf]
  | @expand _ expanded middle _ after file children trees ho hc _ ihc ihr =>
    rw [expansions_expand ho.dependencies_ne_nil hc]
    calc
      after.Perm (expansions trees ++ middle) := ihr
      List.Perm _ (expansions trees ++ (expansions children ++ file :: expanded)) :=
        ihc.append_left _
      List.Perm _ (file :: (expansions children ++ expansions trees) ++ expanded) := by
        rw [← List.append_assoc]
        refine List.perm_middle.trans (List.Perm.cons file ?_)
        exact List.perm_append_comm.append_right expanded

theorem Grows.mem_after_iff (h : Grows r limit branch expanded files trees after) :
    v ∈ after ↔ v ∈ expansions trees ∨ v ∈ expanded := by
  rw [h.perm.mem_iff, List.mem_append]

/-- Lists without repeats, the second of which keeps clear of the first, and both of what came
before. -/
structure Fresh (expanded files : List SourceId) : Prop where
  nodup : files.Nodup
  not_mem : ∀ v ∈ files, v ∉ expanded

theorem Fresh.mono (h : Fresh after files) (hs : expanded ⊆ after) : Fresh expanded files :=
  ⟨h.nodup, fun v hv he => h.not_mem v hv (hs he)⟩

theorem Fresh.append {others : List SourceId} (h : Fresh expanded files) (ho : Fresh after others)
    (ha : ∀ v, v ∈ after ↔ v ∈ files ∨ v ∈ expanded) : Fresh expanded (files ++ others) := by
  refine ⟨List.nodup_append.mpr ⟨h.nodup, ho.nodup, ?_⟩, fun v hv he => ?_⟩
  · rintro v hv _ hw rfl
    exact ho.not_mem v hw ((ha v).mpr (.inl hv))
  · rcases List.mem_append.mp hv with hv | hv
    · exact h.not_mem v hv he
    · exact ho.not_mem v hv ((ha v).mpr (.inr he))

/-- No file is expanded twice, nor one that had been expanded before. -/
theorem Grows.fresh (h : Grows r limit branch expanded files trees after) :
    Fresh expanded (expansions trees) := by
  induction h with
  | nil => exact ⟨by simp, by simp⟩
  | leaf _ _ ih => rwa [expansions_leaf]
  | @expand _ expanded _ _ _ file children _ ho hc _ ihc ihr =>
    rw [expansions_expand ho.dependencies_ne_nil hc]
    have hnew : Fresh expanded [file] :=
      ⟨by simp, fun v hv => List.mem_singleton.mp hv ▸ ho.not_mem_expanded⟩
    have hchildren : Fresh expanded (file :: expansions children) :=
      hnew.append ihc fun v => by simp
    refine hchildren.append ihr fun v => ?_
    rw [hc.mem_after_iff]
    simp only [List.mem_cons, or_comm, or_left_comm, or_assoc]

/-- One node is shown for each file of the list, and one for each declaration of a file that is
expanded. -/
theorem Grows.length_drawn (h : Grows r limit branch expanded files trees after) :
    (drawn trees).length = files.length + declared r (expansions trees) := by
  induction h with
  | nil => simp [declared]
  | leaf _ _ ih =>
    rw [expansions_leaf, drawn_leaf, List.length_cons, ih, List.length_cons]
    omega
  | expand ho hc _ ihc ihr =>
    rw [expansions_expand ho.dependencies_ne_nil hc, declared_cons, declared_append, drawn,
      List.length_cons, List.length_append, ihc, ihr, List.length_cons]
    omega

end SourceBundle.Tree
