import SourceBundle.Graph.Basic

/-! # The edges of a registry's graph

A node's edges are what its file declares, without itself and without repeats, in the order of
first declaration.
-/
namespace SourceBundle.Graph

def Needs (g : Graph) (i j : SourceId) : Prop := j ∈ g.dependencies i

/-- Every edge leads to a node. -/
def Closed (g : Graph) : Prop := ∀ i j, g.Needs i j → j < g.size

/-- What a file needs besides itself, each once. -/
def others (id : SourceId) (declared : List SourceId) : List SourceId :=
  (declared.filter (· ≠ id)).eraseDups

variable {g : Graph} {id j : SourceId}

@[simp] theorem mem_others {declared : List SourceId} :
    j ∈ others id declared ↔ j ∈ declared ∧ j ≠ id := by
  simp [others]

theorem others_concat (declared : List SourceId) (d : SourceId) :
    others id (declared ++ [d]) =
      if d ≠ id ∧ d ∉ declared then others id declared ++ [d] else others id declared := by
  unfold others
  by_cases hd : d = id
  · simp [hd]
  · rw [List.filter_append, List.eraseDups_append, List.filter_cons_of_pos (by simpa using hd),
      List.filter_nil, List.cons_removeAll, List.nil_removeAll]
    by_cases hm : d ∈ declared <;> simp [hd, hm, List.eraseDups_cons]

@[simp] theorem size_edgeless (n : Nat) : (edgeless n).size = n := by simp [edgeless, size]

@[simp] theorem dependencies_edgeless (n : Nat) (i : SourceId) :
    (edgeless n).dependencies i = [] := by
  unfold edgeless dependencies
  by_cases h : i < n <;> simp [h]

@[simp] theorem size_addEdge (g : Graph) (id d : SourceId) : (addEdge id g d).size = g.size := by
  unfold addEdge
  split <;> simp [size]

@[simp] theorem size_addEdges (g : Graph) (node : Source × SourceId) :
    (addEdges g node).size = g.size := by
  unfold addEdges
  induction node.1.dependencies generalizing g with
  | nil => rfl
  | cons d ds ih => rw [List.foldl_cons, ih, size_addEdge]

/-- A new edge comes last; nothing else moves. -/
theorem dependencies_addEdge (hid : id < g.size) (d : SourceId) :
    (addEdge id g d).dependencies j =
      if j = id ∧ d ≠ id ∧ d ∉ g.dependencies id then g.dependencies j ++ [d]
      else g.dependencies j := by
  by_cases h : d = id ∨ d ∈ g.dependencies id
  · rw [addEdge, if_pos h, if_neg]
    rintro ⟨-, hd, hm⟩
    exact h.elim hd hm
  · obtain ⟨hd, hm⟩ := not_or.mp h
    rw [addEdge, if_neg h]
    by_cases hj : j = id
    · subst hj
      have hrow : g.edges[j]? = some g.edges[j] := List.getElem?_eq_getElem hid
      rw [if_pos ⟨rfl, hd, hm⟩]
      simp [dependencies, hrow]
    · rw [if_neg fun hh => hj hh.1]
      simp [dependencies, Ne.symm hj]

theorem dependencies_foldl_addEdge (hid : id < g.size) (declared ds : List SourceId)
    (hg : g.dependencies id = others id declared) :
    (ds.foldl (addEdge id) g).dependencies j =
      if j = id then others id (declared ++ ds) else g.dependencies j := by
  induction ds generalizing g declared with
  | nil =>
    by_cases hj : j = id
    · simp [hj, hg]
    · simp [hj]
  | cons d ds ih =>
    have hd : (addEdge id g d).dependencies id = others id (declared ++ [d]) := by
      rw [dependencies_addEdge hid, others_concat, hg]
      by_cases hne : d = id <;> simp [hne]
    rw [List.foldl_cons, ih (by simpa using hid) (declared ++ [d]) hd, List.append_assoc,
      List.singleton_append, dependencies_addEdge hid]
    by_cases hj : j = id <;> simp [hj]

theorem dependencies_addEdges {source : Source} (hid : id < g.size) (hg : g.dependencies id = []) :
    (addEdges g (source, id)).dependencies j =
      if j = id then others id source.dependencies else g.dependencies j := by
  have h := dependencies_foldl_addEdge (j := j) hid [] source.dependencies (by simpa [others])
  simpa [addEdges] using h

/-- Rows are filled one after the other; those before the first stay as they are. -/
theorem dependencies_foldl_addEdges (sources : List Source) (k : Nat) {j : Nat}
    (hk : k + sources.length ≤ g.size) (hg : ∀ i, k ≤ i → g.dependencies i = []) :
    ((sources.zipIdx k).foldl addEdges g).dependencies j =
      if k ≤ j then others j ((sources[j - k]?).elim [] Source.dependencies)
      else g.dependencies j := by
  induction sources generalizing g k with
  | nil =>
    by_cases hj : k ≤ j
    · simp [hj, hg j hj, others]
    · simp [hj]
  | cons source sources ih =>
    simp only [List.length_cons] at hk
    have hlt : k < g.size := by omega
    have hrow : ∀ i, (addEdges g (source, k)).dependencies i =
        if i = k then others k source.dependencies else g.dependencies i :=
      fun i => dependencies_addEdges hlt (hg k (Nat.le_refl k))
    have hrest : ∀ i, k + 1 ≤ i → (addEdges g (source, k)).dependencies i = [] := by
      intro i hi
      rw [hrow, if_neg (Nat.ne_of_gt hi), hg i (Nat.le_of_succ_le hi)]
    rw [List.zipIdx_cons, List.foldl_cons, ih (k + 1) (by rw [size_addEdges]; omega) hrest, hrow]
    rcases Nat.lt_trichotomy j k with hj | rfl | hj
    · rw [if_neg (by omega), if_neg (Nat.ne_of_lt hj), if_neg (by omega)]
    · rw [if_neg (by omega), if_pos rfl, if_pos (Nat.le_refl j), Nat.sub_self]
      rfl
    · have hs : j - k = j - (k + 1) + 1 := by omega
      rw [if_pos (by omega), if_pos (by omega), hs, List.getElem?_cons_succ]

@[simp] theorem size_ofRegistry (r : Registry) : (ofRegistry r).size = r.size := by
  have hfold : ∀ (nodes : List (Source × SourceId)) (g : Graph),
      (nodes.foldl addEdges g).size = g.size := by
    intro nodes
    induction nodes with
    | nil => exact fun _ => rfl
    | cons node nodes ih => exact fun g => by rw [List.foldl_cons, ih, size_addEdges]
  rw [ofRegistry, hfold, size_edgeless]

theorem dependencies_ofRegistry (r : Registry) (id : SourceId) :
    (ofRegistry r).dependencies id = others id (r.dependencies id) := by
  have h := dependencies_foldl_addEdges (g := edgeless r.size) (j := id) r.sources 0
    (by simp [Registry.size]) (by simp)
  simpa [ofRegistry, Registry.dependencies, Registry.source?] using h

end SourceBundle.Graph
