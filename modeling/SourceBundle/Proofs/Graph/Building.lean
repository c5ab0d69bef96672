import SourceBundle.Proofs.Graph.Cycle
import SourceBundle.Proofs.Graph.Dependents

/-! # Building a graph in tables

Edges and counts stand in two tables with an entry for each file. Here a number behind the end of a
table has no entry that could be read or changed, and building that needs one has no outcome. It has
one exactly if every declared dependency is the number of a file.
-/
namespace SourceBundle

/-- A fold with checks is the fold without them if each step accepts what it should. -/
theorem foldlM_eq_some_iff {σ α : Type} {P : σ → Prop} {Ok : α → Prop}
    {step? : σ → α → Option σ} {step : σ → α → σ} {xs : List α} {s t : σ}
    (hstep : ∀ s x t, P s → x ∈ xs → (step? s x = some t ↔ Ok x ∧ step s x = t))
    (hkeep : ∀ s x, P s → x ∈ xs → Ok x → P (step s x)) (hs : P s) :
    xs.foldlM step? s = some t ↔ (∀ x ∈ xs, Ok x) ∧ xs.foldl step s = t := by
  induction xs generalizing s with
  | nil => simp
  | cons x xs ih =>
    have hrest (u : σ) (hu : P u) :
        xs.foldlM step? u = some t ↔ (∀ x ∈ xs, Ok x) ∧ xs.foldl step u = t :=
      ih (fun s y t hs hy => hstep s y t hs (List.mem_cons_of_mem x hy))
        (fun s y hs hy => hkeep s y hs (List.mem_cons_of_mem x hy)) hu
    rw [List.foldlM_cons, Option.bind_eq_bind, Option.bind_eq_some_iff, List.forall_mem_cons,
      List.foldl_cons]
    constructor
    · rintro ⟨u, hu, ht⟩
      obtain ⟨hx, rfl⟩ := (hstep s x u hs List.mem_cons_self).mp hu
      obtain ⟨hxs, ht⟩ := (hrest _ (hkeep s x hs List.mem_cons_self hx)).mp ht
      exact ⟨⟨hx, hxs⟩, ht⟩
    · rintro ⟨⟨hx, hxs⟩, ht⟩
      exact ⟨step s x, (hstep s x _ hs List.mem_cons_self).mpr ⟨hx, rfl⟩,
        (hrest _ (hkeep s x hs List.mem_cons_self hx)).mpr ⟨hxs, ht⟩⟩

namespace Graph

/-- Changes an entry; behind the end there is none. -/
def modify? {α : Type} (entries : List α) (i : Nat) (f : α → α) : Option (List α) :=
  if i < entries.length then some (entries.modify i f) else none

def addEdge? (id : SourceId) (g : Graph) (dependency : SourceId) : Option Graph := do
  let row ← g.edges[id]?
  if dependency = id ∨ dependency ∈ row then return g
  let edges ← modify? g.edges id (· ++ [dependency])
  let dependents ← modify? g.dependents dependency (· + 1)
  return ⟨edges, dependents⟩

/-- The row of a file is looked up even if the file declares nothing. -/
def addEdges? (g : Graph) (node : Source × SourceId) : Option Graph := do
  let _ ← g.edges[node.2]?
  node.1.dependencies.foldlM (addEdge? node.2) g

def ofRegistry? (r : Registry) : Option Graph :=
  r.sources.zipIdx.foldlM addEdges? (edgeless r.size)

variable {g t : Graph} {n : Nat} {id d i : SourceId}

theorem modify?_of_lt {α : Type} {entries : List α} (h : i < entries.length) (f : α → α) :
    modify? entries i f = some (entries.modify i f) := if_pos h

theorem getElem?_edges (h : i < g.size) : g.edges[i]? = some (g.dependencies i) := by
  rw [dependencies, List.getElem?_eq_getElem h, Option.getD_some]

/-- Both tables have so many entries, and every edge leads to one of them. -/
structure Sized (n : Nat) (g : Graph) : Prop where
  edges : g.size = n
  dependents : g.dependents.length = n
  closed : g.Closed

theorem sized_edgeless (n : Nat) : Sized n (edgeless n) :=
  ⟨size_edgeless n, List.length_replicate, fun i j h => by simp [Needs] at h⟩

theorem Sized.addEdge (h : Sized n g) (hid : id < n) (hd : d < n) : Sized n (addEdge id g d) := by
  refine ⟨(size_addEdge g id d).trans h.edges, ?_, fun i j hj => ?_⟩
  · unfold Graph.addEdge
    split
    · exact h.dependents
    · exact (List.length_modify ..).trans h.dependents
  · rw [size_addEdge, h.edges]
    rw [Needs, dependencies_addEdge (h.edges.symm ▸ hid)] at hj
    split at hj
    · rcases List.mem_append.mp hj with hj | hj
      · exact h.edges ▸ h.closed i j hj
      · rwa [List.mem_singleton.mp hj]
    · exact h.edges ▸ h.closed i j hj

/-- What an edge that is there already leads to has been checked before. -/
theorem Sized.addEdge?_eq_some_iff (h : Sized n g) (hid : id < n) :
    addEdge? id g d = some t ↔ d < n ∧ Graph.addEdge id g d = t := by
  have hid' : id < g.size := h.edges.symm ▸ hid
  simp only [addEdge?, getElem?_edges hid', Option.bind_eq_bind, Option.bind_some, Graph.addEdge]
  by_cases hold : d = id ∨ d ∈ g.dependencies id
  · have hd : d < n := hold.elim (fun he => he ▸ hid) fun hm => h.edges ▸ h.closed id d hm
    simp [if_pos hold, hd]
  · rw [if_neg hold, if_neg hold]
    by_cases hd : d < n
    · simp [modify?_of_lt hid', modify?_of_lt (h.dependents.symm ▸ hd), hd]
    · simp [modify?, h.dependents, hd]

theorem Sized.addEdges (h : Sized n g) {node : Source × SourceId} (hid : node.2 < n)
    (hd : ∀ d ∈ node.1.dependencies, d < n) : Sized n (addEdges g node) :=
  List.foldlRecOn _ _ h fun _ hb d hm => hb.addEdge hid (hd d hm)

theorem Sized.addEdges?_eq_some_iff (h : Sized n g) {node : Source × SourceId} (hid : node.2 < n) :
    addEdges? g node = some t ↔ (∀ d ∈ node.1.dependencies, d < n) ∧ Graph.addEdges g node = t := by
  rw [addEdges?, getElem?_edges (h.edges.symm ▸ hid)]
  exact foldlM_eq_some_iff (P := Sized n) (fun _ _ _ hs _ => hs.addEdge?_eq_some_iff hid)
    (fun _ _ hs _ hd => hs.addEdge hid hd) h

/-- Building has an outcome if and only if all dependencies are in range, and it is the graph. -/
theorem ofRegistry?_eq_some_iff {r : Registry} :
    ofRegistry? r = some g ↔ r.InRange ∧ ofRegistry r = g := by
  have hlt : ∀ node ∈ r.sources.zipIdx, node.2 < r.size := by
    intro node hm
    obtain ⟨-, h, -⟩ := List.mem_zipIdx hm
    simpa [Registry.size] using h
  have hrange : (∀ node ∈ r.sources.zipIdx, ∀ d ∈ node.1.dependencies, d < r.size) ↔ r.InRange := by
    constructor
    · intro h source hm
      obtain ⟨i, hi⟩ := List.mem_iff_getElem?.mp hm
      exact h (source, i) (List.mem_zipIdx_iff_getElem?.mpr hi)
    · intro h node hm
      exact h node.1 (List.mem_of_getElem? (List.mem_zipIdx_iff_getElem?.mp hm))
  rw [← hrange]
  exact foldlM_eq_some_iff (P := Sized r.size)
    (fun _ node _ hs hm => hs.addEdges?_eq_some_iff (hlt node hm))
    (fun _ node hs hm hd => hs.addEdges (hlt node hm) hd) (sized_edgeless r.size)

/-- A record that declares a number without a record. -/
example : ofRegistry? ⟨[⟨["a"], none, [0, 1]⟩], by decide⟩ = none := by decide

theorem sized_ofRegistry {r : Registry} (h : r.InRange) : Sized r.size (ofRegistry r) :=
  ⟨size_ofRegistry r, (counted_ofRegistry r).length.trans (size_ofRegistry r), h.closed⟩

end Graph

end SourceBundle
