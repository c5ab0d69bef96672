import Mathlib.Data.List.Chain
import SourceBundle.Graph.Walk
import SourceBundle.Proofs.Graph.Edges

/-! # The moves of a walk

A walk moves in four ways. What each of them preserves holds when the walk is over, and when it
closes a cycle.
-/
namespace SourceBundle.Graph.Walk

variable {g : Graph} {s t : Walk}

inductive Move (g : Graph) : Walk → Walk → Prop
  /-- The path is empty: the first fresh node starts a new one. -/
  | start (root : SourceId) (fresh left : List SourceId) :
    Move g ⟨root :: fresh, [], left⟩ ⟨fresh, [⟨root, g.dependencies root⟩], left⟩
  /-- No edge is waiting: the node is left. -/
  | leave (fresh : List SourceId) (node : SourceId) (path : List Frame) (left : List SourceId) :
    Move g ⟨fresh, ⟨node, []⟩ :: path, left⟩ ⟨fresh, path, node :: left⟩
  | descend (fresh : List SourceId) (node next : SourceId) (waiting : List SourceId)
      (path : List Frame) (left : List SourceId) (h : next ∈ fresh) :
    Move g ⟨fresh, ⟨node, next :: waiting⟩ :: path, left⟩
      ⟨fresh.erase next, ⟨next, g.dependencies next⟩ :: ⟨node, waiting⟩ :: path, left⟩
  /-- The edge leads to a node met before. -/
  | pass (fresh : List SourceId) (node next : SourceId) (waiting : List SourceId)
      (path : List Frame) (left : List SourceId) (h : next ∉ fresh) :
    Move g ⟨fresh, ⟨node, next :: waiting⟩ :: path, left⟩ ⟨fresh, ⟨node, waiting⟩ :: path, left⟩

theorem step_eq_some_iff : step g s = some t ↔ Move g s t := by
  constructor
  · intro h
    obtain ⟨fresh, path, left⟩ := s
    match path, fresh with
    | [], [] => simp [step] at h
    | [], root :: fresh =>
      cases h
      exact .start root fresh left
    | ⟨node, []⟩ :: path, fresh =>
      cases h
      exact .leave fresh node path left
    | ⟨node, next :: waiting⟩ :: path, fresh =>
      simp only [step] at h
      by_cases hm : next ∈ fresh
      · rw [if_pos hm] at h
        cases h
        exact .descend fresh node next waiting path left hm
      · rw [if_neg hm] at h
        cases h
        exact .pass fresh node next waiting path left hm
  · intro h
    cases h with
    | start => rfl
    | leave => rfl
    | descend _ _ _ _ _ _ h => simp [step, h]
    | pass _ _ _ _ _ _ h => simp [step, h]

/-- A walk that cannot move has left everything it met. -/
theorem step_eq_none (h : step g s = none) : s.fresh = [] ∧ s.path = [] := by
  obtain ⟨fresh, path, left⟩ := s
  match path, fresh with
  | [], [] => exact ⟨rfl, rfl⟩
  | [], root :: fresh => cases h
  | ⟨node, []⟩ :: path, fresh => cases h
  | ⟨node, next :: waiting⟩ :: path, fresh =>
    simp only [step] at h
    split at h <;> cases h

theorem Move.finish_eq (h : Move g s t) : finish g s = finish g t := by
  rw [finish]
  split
  · rename_i hs
    rw [step_eq_some_iff.mpr h] at hs
    cases hs
  · rename_i u hs
    rw [step_eq_some_iff.mpr h] at hs
    cases hs
    rfl

theorem finish_eq_of_step_eq_none (h : step g s = none) : finish g s = s.left.reverse := by
  rw [finish]
  split
  · rfl
  · rename_i u hs
    rw [h] at hs
    cases hs

theorem Move.findCycle_eq (h : Move g s t) (hs : s.closing? = none) :
    findCycle g s = findCycle g t := by
  rw [findCycle, hs]
  simp only
  split
  · rename_i hn
    rw [step_eq_some_iff.mpr h] at hn
    cases hn
  · rename_i u hu
    rw [step_eq_some_iff.mpr h] at hu
    cases hu
    rfl

theorem findCycle_of_closing {node : SourceId} (h : s.closing? = some node) :
    findCycle g s = some (s.loop node) := by
  rw [findCycle, h]

theorem closing_of_findCycle_eq_none (h : findCycle g s = none) : s.closing? = none := by
  cases hc : s.closing? with
  | none => rfl
  | some node => rw [findCycle_of_closing hc] at h; cases h

/-! ## Invariants of whole walks -/

theorem finish_induction {Inv : Walk → Prop} (hm : ∀ s t, Move g s t → Inv s → Inv t)
    (hs : Inv s) : ∃ t, Inv t ∧ step g t = none ∧ finish g s = t.left.reverse := by
  induction s using finish.induct g with
  | case1 s h => exact ⟨s, hs, h, finish_eq_of_step_eq_none h⟩
  | case2 s t h ih =>
    have hst := step_eq_some_iff.mp h
    rw [hst.finish_eq]
    exact ih (hm s t hst hs)

theorem findCycle_induction {Inv : Walk → Prop} (hm : ∀ s t, Move g s t → Inv s → Inv t)
    (hs : Inv s) {members : List SourceId} (h : findCycle g s = some members) :
    ∃ t node, Inv t ∧ t.closing? = some node ∧ members = t.loop node := by
  induction s using findCycle.induct g with
  | case1 s node hc =>
    rw [findCycle_of_closing hc] at h
    cases h
    exact ⟨s, node, hs, hc, rfl⟩
  | case2 s hc hn =>
    rw [findCycle, hc] at h
    simp only at h
    split at h
    · cases h
    · rename_i t ht
      rw [hn] at ht
      cases ht
  | case3 s hc t ht ih =>
    have hst := step_eq_some_iff.mp ht
    rw [hst.findCycle_eq hc] at h
    exact ih (hm s t hst hs) h

/-- Every node is in one of three places: not met yet, on the path, or left. -/
def Parted (g : Graph) (s : Walk) : Prop := (s.fresh ++ (s.nodes ++ s.left)).Perm g.nodes

theorem parted_begin (g : Graph) : Parted g (begin g) := by
  simp [Parted, begin, nodes]

theorem Move.parted (h : Move g s t) (hs : Parted g s) : Parted g t := by
  refine List.Perm.trans ?_ hs
  cases h with
  | start root fresh left => exact List.perm_middle
  | leave fresh node path left =>
    exact (List.perm_middle (a := node)).append_left fresh
  | descend fresh node next waiting path left h =>
    exact List.perm_middle.trans ((List.perm_cons_erase h).symm.append_right _)
  | pass => exact List.Perm.refl _

theorem Parted.mem_iff (h : Parted g s) {i : SourceId} :
    i ∈ s.fresh ∨ i ∈ s.nodes ∨ i ∈ s.left ↔ i < g.size := by
  rw [← List.mem_append, ← List.mem_append, List.Perm.mem_iff h, Graph.nodes, List.mem_range]

theorem Parted.nodup (h : Parted g s) : (s.fresh ++ (s.nodes ++ s.left)).Nodup :=
  (List.Perm.nodup_iff h).mpr List.nodup_range

theorem Parted.nodup_nodes (h : Parted g s) : s.nodes.Nodup :=
  (List.nodup_append.mp (List.nodup_append.mp h.nodup).2.1).1

/-- The path holds exactly the nodes that have been entered and not left. -/
theorem Parted.mem_nodes_iff (h : Parted g s) {i : SourceId} (hi : i < g.size) :
    i ∈ s.nodes ↔ i ∉ s.fresh ∧ i ∉ s.left := by
  obtain ⟨-, hrest, hfresh⟩ := List.nodup_append.mp h.nodup
  obtain ⟨-, -, hleft⟩ := List.nodup_append.mp hrest
  constructor
  · intro hm
    exact ⟨fun hf => hfresh i hf i (List.mem_append_left _ hm) rfl, fun hl => hleft i hm i hl rfl⟩
  · rintro ⟨hf, hl⟩
    exact ((h.mem_iff.mpr hi).resolve_left hf).resolve_right hl

/-- Each node of the path is needed by the one below it, and an edge that waits is an edge. -/
structure Linked (g : Graph) (s : Walk) : Prop where
  chain : s.nodes.IsChain fun i j => g.Needs j i
  waiting : ∀ f ∈ s.path, ∀ j ∈ f.waiting, g.Needs f.node j

theorem linked_begin (g : Graph) : Linked g (begin g) :=
  ⟨List.isChain_nil, fun _ hf => absurd hf List.not_mem_nil⟩

theorem Move.linked (h : Move g s t) (hs : Linked g s) : Linked g t := by
  obtain ⟨hc, hw⟩ := hs
  cases h with
  | start root fresh left =>
    refine ⟨List.isChain_singleton root, ?_⟩
    intro f hf j hj
    rw [List.mem_singleton.mp hf] at hj ⊢
    exact hj
  | leave fresh node path left =>
    exact ⟨hc.tail, fun f hf => hw f (List.mem_cons_of_mem _ hf)⟩
  | descend fresh node next waiting path left h =>
    have htop := hw ⟨node, next :: waiting⟩ List.mem_cons_self
    refine ⟨List.isChain_cons_cons.mpr ⟨htop next List.mem_cons_self, hc⟩, ?_⟩
    intro f hf j hj
    rcases List.mem_cons.mp hf with rfl | hf
    · exact hj
    · rcases List.mem_cons.mp hf with rfl | hf
      · exact htop j (List.mem_cons_of_mem next hj)
      · exact hw f (List.mem_cons_of_mem _ hf) j hj
  | pass fresh node next waiting path left h =>
    have htop := hw ⟨node, next :: waiting⟩ List.mem_cons_self
    refine ⟨hc, ?_⟩
    intro f hf j hj
    rcases List.mem_cons.mp hf with rfl | hf
    · exact htop j (List.mem_cons_of_mem next hj)
    · exact hw f (List.mem_cons_of_mem _ hf) j hj

/-- What has been left when the walk is over is everything, once. -/
theorem order_perm (g : Graph) : g.order.Perm g.nodes := by
  obtain ⟨t, ht, hn, he⟩ := finish_induction (fun s t h => h.parted) (parted_begin g)
  obtain ⟨hf, hp⟩ := step_eq_none hn
  rw [order, he]
  refine (List.reverse_perm t.left).trans ?_
  simpa [Parted, nodes, hf, hp] using ht

end SourceBundle.Graph.Walk
