import SourceBundle.Order
import SourceBundle.Proofs.Graph.Settled
import SourceBundle.Proofs.PostOrder

/-! # The walk emits in post-order

The walk with its path of frames does what the recursive definition does, started from every
node in turn. The fresh nodes are those not marked, and the nodes left are those appended.
-/
namespace SourceBundle

theorem Order.position?_eq_some_iff {order : Order} {id : SourceId} {k : Nat}
    (h : order.Nodup) : order.position? id = some k ↔ order[k]? = some id := by
  constructor
  · intro hk
    obtain ⟨hlt, hid, -⟩ := List.findIdx?_eq_some_iff_getElem.mp hk
    rw [List.getElem?_eq_getElem hlt, of_decide_eq_true hid]
  · intro hk
    obtain ⟨hlt, hid⟩ := List.getElem?_eq_some_iff.mp hk
    refine List.findIdx?_eq_some_iff_getElem.mpr ⟨hlt, decide_eq_true hid, fun j hj he => ?_⟩
    -- The number would stand at an earlier place too.
    have hji := (List.getElem_inj h).mp ((of_decide_eq_true he).trans hid.symm)
    exact absurd hji hj.ne

namespace Graph.Walk
open PostOrder

variable {g : Graph} {fresh left : List SourceId} {s t : State SourceId} {next node : SourceId}

/-- A walk and a recursive emission have come equally far. -/
structure Agrees (g : Graph) (fresh left : List SourceId) (s : State SourceId) : Prop where
  marked : ∀ i, i < g.size → (i ∈ fresh ↔ i ∉ s.marked)
  nodup : fresh.Nodup
  order : s.order = left.reverse

theorem agrees_begin (g : Graph) : Agrees g g.nodes [] {} := by
  refine ⟨?_, List.nodup_range, rfl⟩
  intro i hi
  simpa [Graph.nodes] using hi

theorem Agrees.mark (h : Agrees g fresh left s) :
    Agrees g (fresh.erase next) left (s.mark next) := by
  refine ⟨?_, h.nodup.erase next, h.order⟩
  intro i hi
  rw [h.nodup.mem_erase_iff, h.marked i hi, State.mark, List.mem_cons, not_or]

theorem Agrees.append (h : Agrees g fresh left s) :
    Agrees g fresh (node :: left) (s.append node) :=
  ⟨h.marked, h.nodup, by simp [State.append, h.order]⟩

/-- Emitting what waits in a frame takes the walk to where that frame is left. -/
def Follows (g : Graph) (fresh left : List SourceId) (s : State SourceId)
    (waiting : List SourceId) : Prop :=
  ∀ node path, ∃ t fresh' left', Emits g.dependencies s waiting t ∧
    fresh'.Sublist fresh ∧ Agrees g fresh' left' t ∧
    finish g ⟨fresh, ⟨node, waiting⟩ :: path, left⟩ = finish g ⟨fresh', path, node :: left'⟩

theorem follows_waiting (hg : g.Closed) {waiting : List SourceId}
    (hw : ∀ j ∈ waiting, j < g.size) (ha : Agrees g fresh left s) :
    Follows g fresh left s waiting := by
  -- Entering a node uses up a fresh one; trying an edge uses up a waiting one.
  induction hk : fresh.length using Nat.strong_induction_on
    generalizing fresh left s waiting with
  | _ k ih =>
    replace hk : fresh.length ≤ k := hk.le
    induction waiting generalizing fresh left s with
    | nil => exact fun node path => ⟨s, fresh, left, .nil s, List.Sublist.refl _, ha,
        (Move.leave fresh node path left).finish_eq⟩
    | cons next waiting ihw =>
      intro node path
      have hn : next < g.size := hw next List.mem_cons_self
      have hws : ∀ j ∈ waiting, j < g.size := fun j hj => hw j (List.mem_cons_of_mem next hj)
      by_cases hm : next ∈ fresh
      · have hlen : (fresh.erase next).length < k := by
          have hpos := List.length_pos_of_mem hm
          rw [List.length_erase_of_mem hm]
          omega
        obtain ⟨t, fresh₁, left₁, ht, hs₁, ha₁, hf₁⟩ :=
          ih _ hlen (hg next) ha.mark rfl next (⟨node, waiting⟩ :: path)
        have hk₁ : fresh₁.length ≤ k := (hs₁.length_le.trans_lt hlen).le
        obtain ⟨u, fresh₂, left₂, hu, hs₂, ha₂, hf₂⟩ := ihw hws ha₁.append hk₁ node path
        have hnew : next ∉ s.marked := (ha.marked next hn).mp hm
        refine ⟨u, fresh₂, left₂, .enter s next waiting t u hnew ht hu,
          hs₂.trans (hs₁.trans List.erase_sublist), ha₂, ?_⟩
        rw [(Move.descend fresh node next waiting path left hm).finish_eq, hf₁, hf₂]
      · obtain ⟨t, fresh', left', ht, hs', ha', hf'⟩ := ihw hws ha hk node path
        have hmarked : next ∈ s.marked := by
          by_contra hc
          exact hm ((ha.marked next hn).mpr hc)
        refine ⟨t, fresh', left', .skip s next waiting t hmarked ht, hs', ha', ?_⟩
        rw [(Move.pass fresh node next waiting path left hm).finish_eq, hf']

/-- Between two roots the path is empty, and the fresh nodes are among the roots to come. -/
theorem finish_emits (hg : g.Closed) {roots : List SourceId} (hr : ∀ i ∈ roots, i < g.size)
    (hd : roots.Nodup) (hs : fresh.Sublist roots) (ha : Agrees g fresh left s) :
    ∃ t, Emits g.dependencies s roots t ∧ finish g ⟨fresh, [], left⟩ = t.order := by
  induction roots generalizing fresh left s with
  | nil =>
    cases List.sublist_nil.mp hs
    refine ⟨s, .nil s, ?_⟩
    rw [ha.order, finish_eq_of_step_eq_none rfl]
  | cons root roots ih =>
    have hroot : root < g.size := hr root List.mem_cons_self
    have hrs : ∀ i ∈ roots, i < g.size := fun i hi => hr i (List.mem_cons_of_mem root hi)
    obtain ⟨hnot, hd⟩ := List.nodup_cons.mp hd
    cases hs with
    | cons _ hs =>
      have hm : root ∈ s.marked := by
        by_contra hc
        exact hnot (hs.subset ((ha.marked root hroot).mpr hc))
      obtain ⟨t, ht, ho⟩ := ih hrs hd hs ha
      exact ⟨t, .skip s root roots t hm ht, ho⟩
    | cons_cons _ hs =>
      rename_i fresh
      have hm : root ∉ s.marked := (ha.marked root hroot).mp List.mem_cons_self
      have ha' : Agrees g ((root :: fresh).erase root) left (s.mark root) := ha.mark
      rw [List.erase_cons_head] at ha'
      obtain ⟨t, fresh', left', ht, hs', ha', hf⟩ := follows_waiting hg (hg root) ha' root []
      obtain ⟨u, hu, ho⟩ := ih hrs hd (hs'.trans hs) ha'.append
      refine ⟨u, .enter s root roots t u hm ht hu, ?_⟩
      rw [(Move.start root fresh left).finish_eq, hf, ho]

end Walk

theorem order_emits {g : Graph} (hg : g.Closed) :
    ∃ t, PostOrder.Emits g.dependencies {} g.nodes t ∧ g.order = t.order :=
  Walk.finish_emits hg (fun _ hi => List.mem_range.mp hi) List.nodup_range
    (List.Sublist.refl _) (Walk.agrees_begin g)

/-! ## Positions -/

theorem closed_iff {g : Graph} : g.Closed ↔ ∀ row ∈ g.edges, ∀ j ∈ row, j < g.size := by
  constructor
  · intro hg row hrow j hj
    obtain ⟨i, hi⟩ := List.mem_iff_getElem?.mp hrow
    refine hg i j ?_
    rwa [Needs, dependencies, hi, Option.getD_some]
  · intro hg i j hj
    unfold Needs dependencies at hj
    cases hi : g.edges[i]? with
    | none =>
      rw [hi] at hj
      cases hj
    | some row =>
      rw [hi] at hj
      exact hg row (List.mem_of_getElem? hi) j hj

instance (g : Graph) : Decidable g.Closed := decidable_of_iff _ closed_iff.symm

/-- The order of emission is what the recursive post-order gives that is started from every node in
turn, whether or not the edges close cycles. It holds every node once, so positions invert it. -/
theorem order_postOrder (g : Graph) (hg : g.Closed) :
    (∃ t, PostOrder.Emits g.dependencies {} g.nodes t ∧
      (∀ u, PostOrder.Emits g.dependencies {} g.nodes u → u = t) ∧ g.order = t.order) ∧
    g.order.Perm g.nodes ∧
    (∀ id < g.size, ∃ k, Order.position? g.order id = some k) ∧
    ∀ id k, Order.position? g.order id = some k ↔ g.order[k]? = some id := by
  obtain ⟨t, ht, horder⟩ := order_emits hg
  have hposition : ∀ id k, Order.position? g.order id = some k ↔ g.order[k]? = some id :=
    fun _ _ => Order.position?_eq_some_iff (nodup_order g)
  refine ⟨⟨t, ht, fun u hu => hu.deterministic ht, horder⟩, Walk.order_perm g, ?_, hposition⟩
  intro id hid
  obtain ⟨k, hk⟩ := List.mem_iff_getElem?.mp (mem_order.mpr hid)
  exact ⟨k, (hposition id k).mpr hk⟩

/-- Two nodes that need each other, one that needs itself and both, and one above them. -/
def tangle : Graph := ⟨[[2, 1], [2, 0, 1], [1, 2], [0]], [2, 3, 3, 0]⟩

theorem tangle_postOrder : tangle.Closed ∧
    (∃ t, PostOrder.Emits tangle.dependencies {} [0, 1, 2, 3] t ∧ t.order = [1, 2, 0, 3]) ∧
    Order.position? [1, 2, 0, 3] 0 = some 2 := by
  have hg : tangle.Closed := by decide
  have horder : tangle.order = [1, 2, 0, 3] := by cbv
  obtain ⟨⟨t, ht, -, ho⟩, -, -, hposition⟩ := order_postOrder tangle hg
  rw [horder] at ho hposition
  exact ⟨hg, ⟨t, ht, ho.symm⟩, (hposition 0 2).mpr rfl⟩

end Graph

end SourceBundle
