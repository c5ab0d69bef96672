import Mathlib.Logic.Relation
import SourceBundle.Proofs.Graph.Moves

/-! # Walks that close no cycle

If the search finds no cycle, every node is left after all that it needs. The order of emission
is then dependencies first, and no node needs itself, at whatever distance.
-/
namespace SourceBundle.Graph

/-- Every node of the list is followed by all that it needs. -/
def Settled (g : Graph) : List SourceId → Prop
  | [] => True
  | node :: left => (∀ j, g.Needs node j → j ∈ left) ∧ Settled g left

variable {g : Graph} {left : List SourceId} {i j : SourceId}

theorem Settled.needs (h : Settled g left) (hi : i ∈ left) (hj : g.Needs i j) : j ∈ left := by
  induction left with
  | nil => cases hi
  | cons node left ih =>
    rcases List.mem_cons.mp hi with rfl | hi
    · exact List.mem_cons_of_mem i (h.1 j hj)
    · exact List.mem_cons_of_mem node (ih h.2 hi)

theorem Settled.transGen_mem {before : List SourceId} (h : Settled g (before ++ i :: left))
    (hj : Relation.TransGen g.Needs i j) : j ∈ left := by
  induction before with
  | cons node before ih => exact ih h.2
  | nil =>
    induction hj with
    | single hj => exact h.1 _ hj
    | tail _ hk ih => exact h.2.needs ih hk

theorem Settled.acyclic (h : Settled g left) (hd : left.Nodup) (hi : i ∈ left) :
    ¬Relation.TransGen g.Needs i i := by
  intro hc
  obtain ⟨before, after, rfl⟩ := List.append_of_mem hi
  have hm := h.transGen_mem hc
  exact (List.nodup_cons.mp (List.nodup_append.mp hd).2.1).1 hm

namespace Walk

/-- Every edge that a frame has tried leads to a node that was left, or to the one above it. -/
def Tried (g : Graph) (left : List SourceId) : Option SourceId → List Frame → Prop
  | _, [] => True
  | above, f :: path =>
    (∀ j, g.Needs f.node j → j ∈ f.waiting ∨ j ∈ left ∨ above = some j) ∧
      Tried g left (some f.node) path

theorem Tried.leave {node : SourceId} {above : Option SourceId} {path : List Frame}
    (h : Tried g left above path) : Tried g (node :: left) above path := by
  induction path generalizing above with
  | nil => trivial
  | cons f path ih =>
    refine ⟨?_, ih h.2⟩
    intro j hj
    rcases h.1 j hj with hw | hl | ha
    · exact Or.inl hw
    · exact Or.inr (Or.inl (List.mem_cons_of_mem node hl))
    · exact Or.inr (Or.inr ha)

theorem Tried.uncover {node : SourceId} {path : List Frame}
    (h : Tried g left (some node) path) (hn : node ∈ left) : Tried g left none path := by
  cases path with
  | nil => trivial
  | cons f path =>
    refine ⟨?_, h.2⟩
    intro j hj
    rcases h.1 j hj with hw | hl | ha
    · exact Or.inl hw
    · exact Or.inr (Or.inl hl)
    · cases ha
      exact Or.inr (Or.inl hn)

/-- What holds all along a walk that closes no cycle. -/
structure Orderly (g : Graph) (s : Walk) : Prop where
  tried : Tried g s.left none s.path
  settled : Settled g s.left
  clear : findCycle g s = none

/-- An edge to a node that was not left would close a cycle, so a node met before has been left. -/
theorem Orderly.mem_left {fresh left waiting : List SourceId} {node next : SourceId}
    {path : List Frame} (hf : next ∉ fresh)
    (hs : Orderly g ⟨fresh, ⟨node, next :: waiting⟩ :: path, left⟩) : next ∈ left := by
  have hc := closing_of_findCycle_eq_none hs.clear
  by_contra hl
  simp only [closing?, if_neg (not_or.mpr ⟨hf, hl⟩)] at hc
  cases hc

theorem Move.orderly {s t : Walk} (h : Move g s t) (hs : Orderly g s) : Orderly g t := by
  have hc : findCycle g t = none :=
    h.findCycle_eq (closing_of_findCycle_eq_none hs.clear) ▸ hs.clear
  cases h with
  | start root fresh left => exact ⟨⟨fun j hj => Or.inl hj, trivial⟩, hs.settled, hc⟩
  | leave fresh node path left =>
    obtain ⟨hd, ht⟩ := hs.tried
    have hd : ∀ j, g.Needs node j → j ∈ left := by
      intro j hj
      rcases hd j hj with hw | hm | ha
      · cases hw
      · exact hm
      · cases ha
    exact ⟨ht.leave.uncover List.mem_cons_self, ⟨hd, hs.settled⟩, hc⟩
  | descend fresh node next waiting path left hm =>
    obtain ⟨hd, ht⟩ := hs.tried
    refine ⟨⟨fun j hj => Or.inl hj, ?_, ht⟩, hs.settled, hc⟩
    intro j hj
    rcases hd j hj with hw | hm | ha
    · rcases List.mem_cons.mp hw with rfl | hw
      · exact Or.inr (Or.inr rfl)
      · exact Or.inl hw
    · exact Or.inr (Or.inl hm)
    · cases ha
  | pass fresh node next waiting path left hm =>
    obtain ⟨hd, ht⟩ := hs.tried
    refine ⟨⟨?_, ht⟩, hs.settled, hc⟩
    intro j hj
    rcases hd j hj with hw | hm' | ha
    · rcases List.mem_cons.mp hw with rfl | hw
      · exact Or.inr (Or.inl (hs.mem_left hm))
      · exact Or.inl hw
    · exact Or.inr (Or.inl hm')
    · cases ha

theorem orderly_begin (h : g.cycle? = none) : Orderly g (begin g) :=
  ⟨trivial, trivial, h⟩

end Walk

theorem settled_order (h : g.cycle? = none) : Settled g g.order.reverse := by
  obtain ⟨t, ht, -, he⟩ := Walk.finish_induction (fun s t h => h.orderly) (Walk.orderly_begin h)
  rw [order, he, List.reverse_reverse]
  exact ht.settled

theorem mem_order : i ∈ g.order ↔ i < g.size := by
  rw [(Walk.order_perm g).mem_iff, nodes, List.mem_range]

theorem nodup_order (g : Graph) : g.order.Nodup :=
  (Walk.order_perm g).nodup_iff.mpr List.nodup_range

/-- A node stands behind all that it needs, at whatever distance. -/
theorem order_split (h : g.cycle? = none) (hi : i < g.size)
    (hj : Relation.TransGen g.Needs i j) :
    ∃ before after, g.order = before ++ i :: after ∧ j ∈ before := by
  obtain ⟨after, before, he⟩ := List.append_of_mem (List.mem_reverse.mpr (mem_order.mpr hi))
  have hs := settled_order h
  rw [he] at hs
  refine ⟨before.reverse, after.reverse, ?_, List.mem_reverse.mpr (hs.transGen_mem hj)⟩
  have hr := congrArg List.reverse he
  simpa using hr

theorem acyclic_of_cycle?_eq_none (hg : g.Closed) (h : g.cycle? = none) (i : SourceId) :
    ¬Relation.TransGen g.Needs i i := by
  intro hc
  have hi : i < g.size := by
    cases hc with
    | single hj => exact hg i i hj
    | tail _ hj => exact hg _ i hj
  have hd := (List.reverse_perm g.order).nodup_iff.mpr (nodup_order g)
  exact (settled_order h).acyclic hd (List.mem_reverse.mpr (mem_order.mpr hi)) hc

end SourceBundle.Graph
