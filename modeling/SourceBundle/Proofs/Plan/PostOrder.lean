import SourceBundle.Proofs.Graph.PostOrder
import SourceBundle.Proofs.Plan.Order

/-! # Plans and the plain recursion

The recursion over the numbers of a registry is the recursion over locations under other names.
Started from all records it does no more than started from the entries, which come first.
-/
namespace SourceBundle

variable {w : Workspace} {charset : Charset} {starts : List Location} {r : Registry}

namespace Registry

/-- The location of a record; any will do where there is no record. -/
def locationOf (r : Registry) (id : SourceId) : Location := (r.location? id).getD []

variable {ids : List SourceId} {ls : List Location}

theorem map_locationOf (h : ids.map r.location? = ls.map some) : ids.map r.locationOf = ls := by
  have hm := congrArg (List.map (Option.getD · [])) h
  rw [List.map_map, List.map_map] at hm
  exact hm.trans (List.map_id ls)

theorem location?_locationOf {id : SourceId} (h : id < r.size) :
    r.location? id = some (r.locationOf id) := by
  have hlt : id < r.locations.length := by rwa [length_locations]
  rw [locationOf, location?, List.getElem?_eq_getElem hlt, Option.getD_some]

theorem injOn_locationOf (r : Registry) : Set.InjOn r.locationOf {id | id < r.size} := by
  intro i hi j hj he
  have hl := location?_locationOf hj
  rw [← he] at hl
  exact eq_of_location? (location?_locationOf hi) hl

theorem map_locationOf_range (r : Registry) :
    (List.range r.size).map r.locationOf = r.locations := by
  apply List.ext_getElem
  · rw [List.length_map, List.length_range, length_locations]
  · intro i _ hi
    rw [List.getElem_map, List.getElem_range, locationOf, location?,
      List.getElem?_eq_getElem hi, Option.getD_some]

theorem filterMap_location? (h : ∀ id ∈ ids, id < r.size) :
    ids.filterMap r.location? = ids.map r.locationOf := by
  rw [← List.filterMap_eq_map]
  apply List.filterMap_congr
  intro id hid
  exact location?_locationOf (h id hid)

end Registry

namespace Discovery.Complete

open PostOrder (Emits)

/-- The recursion over numbers, started from all records, as a recursion over locations. -/
theorem emits_locations (h : Complete w charset starts r) {t : PostOrder.State SourceId}
    (ht : Emits r.dependencies {} (List.range r.size) t) :
    Emits (w.targets charset) {} r.locations (t.map r.locationOf) := by
  have hlt : ∀ i ∈ {id | id < r.size}, ∀ j ∈ r.dependencies i, j ∈ {id | id < r.size} := by
    intro i _ j hj
    obtain ⟨source, hs, -, hd⟩ := Registry.mem_of_mem_dependencies hj
    exact h.inRange source hs j hd
  have hneeds : ∀ i ∈ {id | id < r.size},
      w.targets charset (r.locationOf i) = (r.dependencies i).map r.locationOf := by
    intro i hi
    exact (Registry.map_locationOf (h.map_dependencies (Registry.location?_locationOf hi))).symm
  have hm := Emits.map r.injOn_locationOf hneeds hlt
    (fun i hi => by cases hi) (fun i hi => List.mem_range.mp hi) ht
  rw [Registry.map_locationOf_range] at hm
  exact hm

/-- What the entries lead to is marked once they are emitted, so the other records, whose turn
comes later, leave no trace. -/
theorem emits_starts (h : Complete w charset starts r) {t : PostOrder.State Location}
    (ht : Emits (w.targets charset) {} r.locations t) :
    Emits (w.targets charset) {} starts t := by
  obtain ⟨rest, hrest⟩ := h.entered
  rw [← hrest] at ht
  obtain ⟨u, hu, hut⟩ := ht.of_append
  have hstarts := Emits.of_eraseDups hu
  have hclosed : ∀ start ∈ starts, ∀ l, Relation.ReflTransGen (w.Requires charset) start l →
      l ∈ u.marked := by
    intro start hs l hl
    induction hl with
    | refl => exact hstarts.marks.covers hs
    | tail _ hm ih =>
      rcases hstarts.marks.closes _ ih with hn | hn
      · cases hn
      · exact hn hm
  have hsub : rest ⊆ u.marked := by
    intro l hl
    obtain ⟨start, hs, hr⟩ := h.reached l (hrest ▸ List.mem_append_right _ hl)
    exact hclosed start hs l hr
  obtain rfl := hut.eq_of_subset hsub
  exact hstarts

end Discovery.Complete

namespace Plan

/-- The files of a plan that drops nothing stand in the order of the plain recursion over the
directives, started from the entries. -/
theorem sources_emitted (w : Workspace) (o : Options) (entries : List String) (p : Plan)
    (ho : o.eliminateUnused = false) (h : (plan w o entries).value = .ok p) :
    ∃ (starts : List Location) (t : PostOrder.State Location),
      entries.map w.canonical = starts.map .ok ∧
      (∀ u, PostOrder.Emits (w.targets o.charset) {} starts u ↔ u = t) ∧
      p.sources.map Source.location = t.order := by
  obtain ⟨starts, hs, ha⟩ := plan_arranged ho h
  have hc := ha.complete
  obtain ⟨t, ht, horder⟩ := Graph.order_emits hc.inRange.closed
  rw [Graph.nodes, Graph.size_ofRegistry] at ht
  have hdeps := PostOrder.Emits.of_needs_eraseDups
    (fun id => Graph.dependencies_ofRegistry p.registry id) ht
  have hstarts := hc.emits_starts (hc.emits_locations hdeps)
  refine ⟨starts, t.map p.registry.locationOf, hs, ?_, ?_⟩
  · intro u
    constructor
    · intro hu
      exact hu.deterministic hstarts
    · rintro rfl
      exact hstarts
  · rw [map_location_sources, ha.order, Registry.filterMap_location?, horder]
    · rfl
    · intro id hid
      rw [← Graph.size_ofRegistry]
      exact Graph.mem_order.mp hid

theorem letters_emitted : ({} : Options).eliminateUnused = false ∧
    (plan Discovery.letters {} ["a"]).value = .ok lettersPlan ∧
    ∃ (starts : List Location) (t : PostOrder.State Location),
      ["a"].map Discovery.letters.canonical = starts.map .ok ∧
      (∀ u, PostOrder.Emits (Discovery.letters.targets .utf8) {} starts u ↔ u = t) ∧
      [["c"], ["b"], ["a"]] = t.order :=
  ⟨rfl, plan_letters, sources_emitted Discovery.letters {} ["a"] lettersPlan rfl plan_letters⟩

end Plan

end SourceBundle
