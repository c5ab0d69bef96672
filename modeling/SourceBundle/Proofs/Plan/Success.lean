import SourceBundle.Proofs.Discovery.Faults
import SourceBundle.Proofs.Plan.PostOrder

/-! # When planning succeeds

A plan is made of what discovery finds, unless files need each other in a circle. Whether they do
can be said of the files within reach, without the numbers that a run gives them.
-/
namespace SourceBundle

variable {w : Workspace} {charset : Charset} {starts : List Location} {entries : List String}
  {r : Registry} {i j : SourceId} {l m : Location}

namespace Workspace

/-- A directive of the first file names the second, which is another one. -/
def Needs (w : Workspace) (charset : Charset) (l m : Location) : Prop :=
  w.Requires charset l m ∧ m ≠ l

/-- Some file within reach needs itself through others. -/
def Circular (w : Workspace) (charset : Charset) (entries : List String) : Prop :=
  ∃ l, w.Reaches charset entries l ∧ Relation.TransGen (w.Needs charset) l l

end Workspace

namespace Discovery.Complete

theorem needs_locationOf (h : Complete w charset starts r) (hn : r.Needs i j) :
    w.Needs charset (r.locationOf i) (r.locationOf j) := by
  obtain ⟨hd, hne⟩ := hn
  have hi := Registry.location?_locationOf (Registry.lt_size_of_mem_dependencies hd)
  obtain ⟨source, hs, -, hj⟩ := Registry.mem_of_mem_dependencies hd
  have hj := Registry.location?_locationOf (h.inRange source hs j hj)
  have hm : some (r.locationOf j) ∈ (w.targets charset (r.locationOf i)).map some := by
    rw [← h.map_dependencies hi, ← hj]
    exact List.mem_map_of_mem hd
  obtain ⟨m, hm, he⟩ := List.mem_map.mp hm
  refine ⟨Option.some.inj he ▸ hm, fun hl => ?_⟩
  rw [hl] at hj
  exact hne (Registry.eq_of_location? hj hi)

theorem exists_needs (h : Complete w charset starts r) (hi : r.location? i = some l)
    (hn : w.Needs charset l m) : ∃ j, r.location? j = some m ∧ r.Needs i j := by
  obtain ⟨j, hd, hj⟩ := h.exists_dependency hi hn.1
  refine ⟨j, hj, hd, ?_⟩
  rintro rfl
  exact hn.2 (Option.some.inj (hj.symm.trans hi))

theorem exists_transGen_needs (h : Complete w charset starts r) (hi : r.location? i = some l)
    (hm : Relation.TransGen (w.Needs charset) l m) :
    ∃ j, r.location? j = some m ∧ Relation.TransGen r.Needs i j := by
  induction hm with
  | single hn =>
    obtain ⟨j, hj, hij⟩ := h.exists_needs hi hn
    exact ⟨j, hj, .single hij⟩
  | tail _ hn ih =>
    obtain ⟨k, hk, hik⟩ := ih
    obtain ⟨j, hj, hkj⟩ := h.exists_needs hk hn
    exact ⟨j, hj, hik.tail hkj⟩

theorem circular_iff (h : Complete w charset starts r)
    (hs : entries.map w.canonical = starts.map .ok) :
    w.Circular charset entries ↔ ∃ i, Relation.TransGen r.Needs i i := by
  constructor
  · rintro ⟨l, hl, hll⟩
    obtain ⟨i, hi⟩ := List.mem_iff_getElem?.mp ((h.mem_locations_iff hs).mpr hl)
    obtain ⟨j, hj, hij⟩ := h.exists_transGen_needs hi hll
    obtain rfl := Registry.eq_of_location? hj hi
    exact ⟨j, hij⟩
  · rintro ⟨i, hi⟩
    obtain ⟨k, hk, -⟩ := Relation.TransGen.head'_iff.mp hi
    have hl := Registry.location?_locationOf (Registry.lt_size_of_mem_dependencies hk.1)
    refine ⟨r.locationOf i, (h.mem_locations_iff hs).mp (List.mem_of_getElem? hl), ?_⟩
    exact hi.lift r.locationOf fun _ _ => h.needs_locationOf

end Discovery.Complete

namespace Plan

variable {o : Options} {d : Discovered} {p : Plan}

/-- Whether the files that discovery finds need each other in a circle. -/
theorem cycle?_eq_none_iff (hd : (discover w charset entries).value = .ok d) :
    (Graph.ofRegistry d.registry).cycle? = none ↔ ¬w.Circular charset entries := by
  obtain ⟨starts, hs, hc⟩ := Discovery.discover_complete hd
  rw [hc.inRange.cycle?_eq_none_iff, hc.circular_iff hs]

theorem plan_isOk_iff : (∃ p, (plan w o entries).value = .ok p) ↔
    (∃ d, (discover w o.charset entries).value = .ok d) ∧ ¬w.Circular o.charset entries := by
  cases hd : (discover w o.charset entries).value with
  | error e => simp [plan_of_discover_error hd]
  | ok d =>
    rw [plan_of_discover_ok hd, arrange_eq, ← cycle?_eq_none_iff hd]
    cases (Graph.ofRegistry d.registry).cycle? <;> simp

theorem plan_isCycle_iff : (∃ cycle, (plan w o entries).value = .error (.cycleDetected cycle)) ↔
    (∃ d, (discover w o.charset entries).value = .ok d) ∧ w.Circular o.charset entries := by
  cases hd : (discover w o.charset entries).value with
  | error e =>
    rw [plan_of_discover_error hd]
    have he := Discovery.discover_error hd
    simp only [reduceCtorEq, exists_false, false_and, iff_false]
    rintro ⟨cycle, hc⟩
    cases hc
    exact he
  | ok d =>
    have hcirc := cycle?_eq_none_iff hd
    rw [plan_of_discover_ok hd, arrange_eq]
    cases hc : (Graph.ofRegistry d.registry).cycle? with
    | none => simpa using hcirc.mp hc
    | some members =>
      rw [hc] at hcirc
      simpa [Registry.cycleError] using hcirc

end Plan

end SourceBundle
