import Mathlib.Data.Finset.Card
import Mathlib.Data.Finset.Range
import SourceBundle.Proofs.Graph.Edges

/-! # The dependents of a node

The count kept for a node is the number of nodes with an edge to it. Each new edge keeps that so.
-/
namespace SourceBundle.Graph

variable {g : Graph} {id i j d : SourceId}

/-- The nodes with an edge to a node. -/
def dependentsOf (g : Graph) (j : SourceId) : Finset SourceId :=
  (Finset.range g.size).filter fun i => j ∈ g.dependencies i

theorem mem_dependentsOf : i ∈ g.dependentsOf j ↔ i < g.size ∧ g.Needs i j := by
  rw [dependentsOf, Finset.mem_filter, Finset.mem_range, Needs]

/-- Every node is counted for the nodes that it has edges to. -/
structure Counted (g : Graph) : Prop where
  length : g.dependents.length = g.size
  count : ∀ j < g.size, g.dependentCount j = (g.dependentsOf j).card

theorem counted_edgeless (n : Nat) : Counted (edgeless n) := by
  refine ⟨by simp [edgeless, size], fun j hj => ?_⟩
  have hnone : (edgeless n).dependentsOf j = ∅ := by simp [dependentsOf]
  rw [size_edgeless] at hj
  rw [hnone, Finset.card_empty]
  simp [dependentCount, edgeless, hj]

theorem dependentsOf_addEdge (hid : id < g.size) (hd : d ≠ id) (hm : d ∉ g.dependencies id) :
    (addEdge id g d).dependentsOf j =
      if j = d then insert id (g.dependentsOf j) else g.dependentsOf j := by
  ext i
  have hrow : (addEdge id g d).dependencies i =
      if i = id then g.dependencies i ++ [d] else g.dependencies i := by
    rw [dependencies_addEdge hid]
    simp [hd, hm]
  rw [mem_dependentsOf, size_addEdge, Needs, hrow]
  by_cases hj : j = d
  · subst hj
    rw [if_pos rfl, Finset.mem_insert, mem_dependentsOf, Needs]
    by_cases hi : i = id
    · simp [hi, hid]
    · simp [hi]
  · rw [if_neg hj, mem_dependentsOf, Needs]
    by_cases hi : i = id <;> simp [hi, hj]

theorem dependentCount_addEdge (hd : d ≠ id) (hm : d ∉ g.dependencies id)
    (hj : j < g.dependents.length) :
    (addEdge id g d).dependentCount j =
      if j = d then g.dependentCount j + 1 else g.dependentCount j := by
  have hnew : ¬(d = id ∨ d ∈ g.dependencies id) := fun h => h.elim hd hm
  have hcount : g.dependents[j]? = some g.dependents[j] := List.getElem?_eq_getElem hj
  rw [addEdge, if_neg hnew]
  by_cases hjd : j = d
  · subst hjd
    simp [dependentCount, hcount]
  · simp [dependentCount, hjd, Ne.symm hjd]

theorem Counted.addEdge (h : Counted g) (hid : id < g.size) (d : SourceId) :
    Counted (addEdge id g d) := by
  by_cases hold : d = id ∨ d ∈ g.dependencies id
  · rw [Graph.addEdge, if_pos hold]
    exact h
  · obtain ⟨hd, hm⟩ := not_or.mp hold
    refine ⟨?_, fun j hj => ?_⟩
    · rw [size_addEdge, ← h.length, Graph.addEdge, if_neg hold, List.length_modify]
    · rw [size_addEdge] at hj
      rw [dependentCount_addEdge hd hm (h.length ▸ hj), dependentsOf_addEdge hid hd hm, h.count j hj]
      by_cases hjd : j = d
      · subst hjd
        have hnot : id ∉ g.dependentsOf j := fun hi => hm (mem_dependentsOf.mp hi).2
        rw [if_pos rfl, if_pos rfl, Finset.card_insert_of_notMem hnot]
      · rw [if_neg hjd, if_neg hjd]

theorem Counted.addEdges (h : Counted g) (source : Source) (hid : id < g.size) :
    Counted (addEdges g (source, id)) := by
  unfold Graph.addEdges
  induction source.dependencies generalizing g with
  | nil => exact h
  | cons d ds ih => exact ih (h.addEdge hid d) (by rwa [size_addEdge])

theorem counted_foldl {g : Graph} (h : Counted g) (nodes : List (Source × SourceId))
    (hn : ∀ node ∈ nodes, node.2 < g.size) : Counted (nodes.foldl Graph.addEdges g) := by
  induction nodes generalizing g with
  | nil => exact h
  | cons node nodes ih =>
    obtain ⟨hnode, hrest⟩ := List.forall_mem_cons.mp hn
    exact ih (h.addEdges node.1 hnode) fun x hx => by rw [size_addEdges]; exact hrest x hx

theorem counted_ofRegistry (r : Registry) : Counted (ofRegistry r) := by
  refine counted_foldl (counted_edgeless r.size) _ fun node hn => ?_
  obtain ⟨-, hlt, -⟩ := List.mem_zipIdx hn
  simpa [Registry.size] using hlt

/-- A node is used if it has an edge or there is one to it. -/
theorem isUsed_iff (h : Counted g) (hi : i < g.size) :
    g.isUsed i = true ↔ (∃ j, g.Needs i j) ∨ ∃ k < g.size, g.Needs k i := by
  rw [isUsed, h.count i hi, Bool.or_eq_true, decide_eq_true_eq, Finset.card_pos]
  refine or_congr ?_ ?_
  · simp only [Needs, Bool.not_eq_true', List.isEmpty_eq_false_iff_exists_mem]
  · simp only [Finset.Nonempty, mem_dependentsOf]

end SourceBundle.Graph
