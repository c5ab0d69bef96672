import Mathlib.Algebra.BigOperators.Group.Finset.Basic
import Mathlib.Combinatorics.Enumerative.DoubleCounting
import Mathlib.Order.Interval.Finset.Nat
import SourceBundle.Proofs.Distinct
import SourceBundle.Proofs.Graph.Cycle
import SourceBundle.Proofs.Graph.Dependents

/-! # The graph of a registry is faithful

Edges are the declarations without repeats and self references. Each edge is counted once for the
file that it starts from and once for the file that it leads to, so both ways of counting agree.
-/
namespace SourceBundle

namespace Graph

variable {g : Graph} {r : Registry} {i j : SourceId}

/-- Edges, counted at the nodes that they start from. -/
def edgeCount (g : Graph) : Nat := (g.edges.map List.length).sum

instance (g : Graph) : DecidableRel g.Needs :=
  fun i j => inferInstanceAs (Decidable (j ∈ g.dependencies i))

theorem map_length_edges (g : Graph) :
    g.edges.map List.length = (List.range g.size).map fun i => (g.dependencies i).length := by
  apply List.ext_getElem
  · simp [size]
  · intro i hi _
    have hlt : i < g.edges.length := by simpa using hi
    simp [dependencies, hlt]

theorem Counted.dependents_eq (h : Counted g) :
    g.dependents = (List.range g.size).map g.dependentCount := by
  apply List.ext_getElem
  · rw [h.length, List.length_map, List.length_range]
  · intro j hj _
    simp [dependentCount, hj]

theorem sum_map_range (n : Nat) (f : Nat → Nat) :
    ((List.range n).map f).sum = ∑ i ∈ Finset.range n, f i := by
  rw [← List.toFinset_range, List.sum_toFinset f List.nodup_range]

/-- The edges of a node lead to as many nodes as there are edges. -/
theorem card_targets (hg : g.Closed) (hd : (g.dependencies i).Nodup) :
    ((Finset.range g.size).bipartiteAbove g.Needs i).card = (g.dependencies i).length := by
  rw [← List.toFinset_card_of_nodup hd]
  congr 1
  ext j
  rw [Finset.mem_bipartiteAbove, Finset.mem_range, List.mem_toFinset]
  exact ⟨fun h => h.2, fun h => ⟨hg i j h, h⟩⟩

theorem Counted.sum_dependents (h : Counted g) (hg : g.Closed)
    (hd : ∀ i, (g.dependencies i).Nodup) : g.dependents.sum = g.edgeCount := by
  rw [edgeCount, map_length_edges, h.dependents_eq, sum_map_range, sum_map_range]
  calc ∑ j ∈ Finset.range g.size, g.dependentCount j
      = ∑ j ∈ Finset.range g.size, ((Finset.range g.size).bipartiteBelow g.Needs j).card :=
        Finset.sum_congr rfl fun j hj => h.count j (Finset.mem_range.mp hj)
    _ = ∑ i ∈ Finset.range g.size, ((Finset.range g.size).bipartiteAbove g.Needs i).card :=
        (Finset.sum_card_bipartiteAbove_eq_sum_card_bipartiteBelow g.Needs).symm
    _ = ∑ i ∈ Finset.range g.size, (g.dependencies i).length :=
        Finset.sum_congr rfl fun i _ => card_targets hg (hd i)

/-- The other files that declare a file. -/
def declaring (r : Registry) (j : SourceId) : Finset SourceId :=
  (Finset.range r.size).filter fun i => i ≠ j ∧ j ∈ r.dependencies i

theorem dependentsOf_ofRegistry (r : Registry) (j : SourceId) :
    (ofRegistry r).dependentsOf j = declaring r j := by
  ext i
  rw [mem_dependentsOf, size_ofRegistry, Registry.needs_ofRegistry, declaring, Finset.mem_filter,
    Finset.mem_range, Registry.Needs, and_comm (a := i ≠ j), ne_comm (a := i)]

/-- The edges of a node are what its file declares, in that order, without the file itself and
without what has been declared before. Every node is counted for those other files that declare it,
however often they do, and all these counts make up the number of edges. -/
theorem ofRegistry_faithful (r : Registry) (h : r.InRange) :
    (ofRegistry r).size = r.size ∧
    (∀ i, (ofRegistry r).dependencies i = ((r.dependencies i).filter (· ≠ i)).eraseDups) ∧
    (∀ j < r.size, (ofRegistry r).dependentCount j = (declaring r j).card) ∧
    (ofRegistry r).dependents.sum = (ofRegistry r).edgeCount := by
  have hcounted := counted_ofRegistry r
  have hedges := dependencies_ofRegistry r
  refine ⟨size_ofRegistry r, hedges, fun j hj => ?_, ?_⟩
  · rw [hcounted.count j (by rwa [size_ofRegistry]), dependentsOf_ofRegistry]
  · refine hcounted.sum_dependents h.closed fun i => ?_
    rw [hedges]
    exact nodup_eraseDups _

end Graph

/-- Two files that name each other, one of them twice and itself as well, and one above them. -/
def Registry.couple : Registry where
  sources := [⟨["a"], none, [1, 0, 1]⟩, ⟨["b"], none, [0]⟩, ⟨["top"], none, [1, 0, 1, 2]⟩]
  distinct := by decide

theorem Graph.couple_counted : Registry.couple.InRange ∧
    (Graph.ofRegistry .couple).dependencies 2 = [1, 0] ∧
    (Graph.ofRegistry .couple).dependentCount 1 = 2 ∧
    (Graph.ofRegistry .couple).dependents.sum = 4 := by
  have hr : Registry.couple.InRange := by decide
  obtain ⟨-, hedges, hcounts, hsum⟩ := Graph.ofRegistry_faithful .couple hr
  have hcard : (Graph.declaring .couple 1).card = 2 := by decide
  have hcount : (Graph.ofRegistry .couple).edgeCount = 4 := by decide
  exact ⟨hr, (hedges 2).trans (by decide), (hcounts 1 (by decide)).trans hcard, hsum.trans hcount⟩

end SourceBundle
