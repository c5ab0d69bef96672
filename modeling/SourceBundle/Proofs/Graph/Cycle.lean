import SourceBundle.Plan
import SourceBundle.Proofs.Graph.Settled

/-! # The search for cycles is exact

A cycle that is found is one, and one is found where there is any: wherever it lies and however
deep. Files reached on several ways and files that name themselves do not matter.
-/
namespace SourceBundle

namespace Graph.Walk

variable {g : Graph} {s : Walk} {node : SourceId}

theorem closing_eq_some (h : s.closing? = some node) :
    ∃ top waiting path, s.path = ⟨top, node :: waiting⟩ :: path ∧
      node ∉ s.fresh ∧ node ∉ s.left := by
  unfold closing? at h
  split at h
  · rename_i top next waiting path hp
    split_ifs at h with hm
    cases h
    exact ⟨top, waiting, path, hp, not_or.mp hm⟩
  · cases h

/-- Walks over nodes keep their path in step with what has been entered and left. -/
structure Tracked (g : Graph) (s : Walk) : Prop where
  parted : Parted g s
  linked : Linked g s

theorem tracked_begin (g : Graph) : Tracked g (begin g) := ⟨parted_begin g, linked_begin g⟩

theorem Move.tracked {t : Walk} (h : Move g s t) (hs : Tracked g s) : Tracked g t :=
  ⟨h.parted hs.parted, h.linked hs.linked⟩

/-- A node that has been entered and not left is on the path. -/
theorem Tracked.mem_nodes (hs : Tracked g s) (hg : g.Closed) (h : s.closing? = some node) :
    node ∈ s.nodes := by
  obtain ⟨top, waiting, path, hp, hm⟩ := closing_eq_some h
  have hn := hs.linked.waiting _ (hp ▸ List.mem_cons_self) node List.mem_cons_self
  exact (hs.parted.mem_nodes_iff (hg top node hn)).mpr hm

/-- The path is cut at the node, wherever it stands on it. -/
theorem exists_loop (h : node ∈ s.nodes) : ∃ before rest,
    s.nodes.reverse = before ++ node :: rest ∧ s.position? node = some before.length ∧
      s.loop node = node :: rest ++ [node] := by
  obtain ⟨before, rest, hcut, hfirst⟩ :=
    List.eq_append_cons_of_mem (List.mem_reverse.mpr h)
  have hposition : s.position? node = some before.length := by
    have hnone : before.findIdx? (· = node) = none :=
      List.findIdx?_eq_none_iff.mpr fun i hi => decide_eq_false fun he => hfirst (he ▸ hi)
    rw [position?, hcut, List.findIdx?_append, hnone]
    simp [List.findIdx?_cons]
  refine ⟨before, rest, hcut, hposition, ?_⟩
  rw [loop, hposition, hcut, Option.getD_some, List.drop_left]

/-- The way round a closed path follows the edges, and meets no node twice before it is back. -/
theorem Tracked.loop_eq (hs : Tracked g s) (hg : g.Closed) (h : s.closing? = some node) :
    ∃ rest, s.loop node = node :: rest ++ [node] ∧ (node :: rest).Nodup ∧
      (node :: rest ++ [node]).IsChain g.Needs := by
  obtain ⟨before, rest, hcut, -, hloop⟩ := exists_loop (hs.mem_nodes hg h)
  have hsuffix : node :: rest <:+ s.nodes.reverse := ⟨before, hcut.symm⟩
  refine ⟨rest, hloop, ?_, ?_⟩
  · have hnodup := (List.reverse_perm s.nodes).nodup_iff.mpr hs.parted.nodup_nodes
    exact hnodup.sublist hsuffix.sublist
  · obtain ⟨top, waiting, path, hp, -⟩ := closing_eq_some h
    have hchain : (node :: rest).IsChain g.Needs :=
      (List.isChain_reverse.mpr hs.linked.chain).suffix hsuffix
    have hlast : (node :: rest).getLast? = some top := by
      have hend : s.nodes.reverse.getLast? = some top := by rw [nodes, hp]; simp
      rw [hcut, List.getLast?_append, List.getLast?_cons] at hend
      simpa [List.getLast?_cons] using hend
    refine hchain.append (List.isChain_singleton node) ?_
    intro i hi j hj
    rw [hlast] at hi
    cases hi
    cases hj
    exact hs.linked.waiting _ (hp ▸ List.mem_cons_self) node List.mem_cons_self

end Graph.Walk

namespace Registry

/-- Every dependency is the number of a record. -/
def InRange (r : Registry) : Prop := ∀ s ∈ r.sources, ∀ d ∈ s.dependencies, d < r.size

instance (r : Registry) : Decidable r.InRange := by unfold InRange; infer_instance

def Needs (r : Registry) (i j : SourceId) : Prop := j ∈ r.dependencies i ∧ j ≠ i

instance (r : Registry) : DecidableRel r.Needs := fun i j => by unfold Needs; infer_instance

/-- Two or more files, each of which needs the next and the last of which needs the first. -/
def Cycle (r : Registry) : List SourceId → Prop
  | first :: next :: rest => (first :: next :: rest ++ [first]).IsChain r.Needs
  | _ => False

theorem needs_ofRegistry (r : Registry) : (Graph.ofRegistry r).Needs = r.Needs := by
  funext i j
  simp [Graph.Needs, Needs, Graph.dependencies_ofRegistry]

theorem InRange.closed {r : Registry} (h : r.InRange) : (Graph.ofRegistry r).Closed := by
  intro i j hj
  rw [needs_ofRegistry] at hj
  obtain ⟨s, hs, -, hd⟩ := mem_of_mem_dependencies hj.1
  rw [Graph.size_ofRegistry]
  exact h s hs j hd

theorem Cycle.transGen {r : Registry} {files : List SourceId} (h : r.Cycle files) :
    ∃ i, Relation.TransGen r.Needs i i := by
  match files, h with
  | first :: next :: rest, h =>
    refine ⟨first, ?_⟩
    obtain ⟨hn, hc⟩ := List.isChain_cons_cons.mp h
    have := List.relationReflTransGen_of_exists_isChain_cons (b := first) _ hc (by simp)
    exact Relation.TransGen.head' hn this

theorem cycle_of_cycle? {r : Registry} (hr : r.InRange) {members : List SourceId}
    (h : (Graph.ofRegistry r).cycle? = some members) :
    ∃ files, r.Cycle files ∧ files.Nodup ∧ members = files ++ files.head?.toList := by
  obtain ⟨s, node, hs, hc, rfl⟩ := Graph.Walk.findCycle_induction
    (fun s t hm => hm.tracked) (Graph.Walk.tracked_begin _) h
  obtain ⟨rest, hloop, hnodup, hchain⟩ := hs.loop_eq hr.closed hc
  rw [needs_ofRegistry] at hchain
  refine ⟨node :: rest, ?_, hnodup, hloop⟩
  cases rest with
  | nil =>
    -- No file has an edge to itself, so a loop of one file cannot be.
    exact absurd rfl (List.isChain_pair.mp hchain).2
  | cons next rest => exact hchain

theorem InRange.cycle?_eq_none_iff {r : Registry} (h : r.InRange) :
    (Graph.ofRegistry r).cycle? = none ↔ ¬∃ i, Relation.TransGen r.Needs i i := by
  constructor
  · rintro hc ⟨i, hi⟩
    rw [← needs_ofRegistry] at hi
    exact Graph.acyclic_of_cycle?_eq_none h.closed hc i hi
  · intro hi
    cases hc : (Graph.ofRegistry r).cycle? with
    | none => rfl
    | some members =>
      obtain ⟨files, hfiles, -⟩ := cycle_of_cycle? h hc
      exact absurd hfiles.transGen hi

theorem graph_eq_ok_iff {r : Registry} :
    (∃ g, r.graph = .ok g) ↔ (Graph.ofRegistry r).cycle? = none := by
  unfold graph
  cases h : (Graph.ofRegistry r).cycle? <;> simp

/-- A graph is made of the files if and only if no file needs itself through another. -/
theorem graph_ok_iff_no_cycle (r : Registry) (h : r.InRange) :
    (∃ g, r.graph = .ok g) ↔ ¬∃ files, r.Cycle files := by
  rw [graph_eq_ok_iff]
  constructor
  · rintro hn ⟨files, hf⟩
    obtain ⟨i, hi⟩ := hf.transGen
    rw [← needs_ofRegistry] at hi
    exact Graph.acyclic_of_cycle?_eq_none h.closed hn i hi
  · intro hf
    cases hc : (Graph.ofRegistry r).cycle? with
    | none => rfl
    | some members =>
      obtain ⟨files, hfiles, -⟩ := cycle_of_cycle? h hc
      exact absurd ⟨files, hfiles⟩ hf

/-- Three files that need each other in a ring, below one that names two of them and itself. -/
def ring : Registry where
  sources := [⟨["top"], none, [0, 3, 1, 3]⟩, ⟨["a"], none, [1, 2]⟩, ⟨["b"], none, [3, 2]⟩,
    ⟨["c"], none, [1, 1]⟩]
  distinct := by decide

theorem ring_no_graph : ring.InRange ∧ ring.Cycle [1, 2, 3] ∧ ¬∃ g, ring.graph = .ok g := by
  have hr : ring.InRange := by decide
  have hc : ring.Cycle [1, 2, 3] := by
    unfold Cycle
    decide
  exact ⟨hr, hc, fun h => (graph_ok_iff_no_cycle ring hr).mp h ⟨_, hc⟩⟩

end Registry

end SourceBundle
