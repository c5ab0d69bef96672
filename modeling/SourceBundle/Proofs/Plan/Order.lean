import SourceBundle.Proofs.Discovery.Closure
import SourceBundle.Proofs.Graph.Cycle

/-! # The order of a plan

A plan that drops nothing holds every file within reach of the entries, once and after all that
it needs.
-/
namespace SourceBundle

variable {w : Workspace} {charset : Charset} {starts : List Location} {r : Registry}
  {i : SourceId} {l m : Location}

namespace Discovery.Complete

theorem inRange (h : Complete w charset starts r) : r.InRange := by
  intro source hs id hid
  have hm : r.location? id ∈ (w.targets charset source.location).map some :=
    (h.faithful source hs).map_dependencies ▸ List.mem_map_of_mem hid
  obtain ⟨l, -, hl⟩ := List.mem_map.mp hm
  exact Registry.lt_size_of_location? hl.symm

/-- Following directives is following edges, but for those to the file itself. -/
theorem needs_of_requires (h : Complete w charset starts r) (hi : r.location? i = some l)
    (hm : Relation.ReflTransGen (w.Requires charset) l m) :
    ∃ j, r.location? j = some m ∧ Relation.ReflTransGen r.Needs i j := by
  induction hm with
  | refl => exact ⟨i, hi, .refl⟩
  | tail _ hm ih =>
    obtain ⟨j, hj, hij⟩ := ih
    obtain ⟨n, hn, hnm⟩ := h.exists_dependency hj hm
    by_cases he : n = j
    · subst he
      exact ⟨n, hnm, hij⟩
    · exact ⟨n, hnm, hij.tail ⟨hn, he⟩⟩

end Discovery.Complete

namespace Plan

variable {o : Options} {entries : List String} {p : Plan} {d : Discovered}

/-- Whether a file of the order is written. -/
def keeps (o : Options) (g : Graph) (id : SourceId) : Bool := !o.eliminateUnused || g.isUsed id

/-- What makes up a plan. -/
structure Planned (w : Workspace) (o : Options) (starts : List Location) (p : Plan) : Prop where
  complete : Discovery.Complete w o.charset starts p.registry
  acyclic : (Graph.ofRegistry p.registry).cycle? = none
  order : p.order =
    (Graph.ofRegistry p.registry).order.filter (keeps o (Graph.ofRegistry p.registry))
  options : p.options = o

theorem arrange_eq (o : Options) (d : Discovered) :
    (arrange o d).value = match (Graph.ofRegistry d.registry).cycle? with
      | some members => .error (d.registry.cycleError members)
      | none => .ok ⟨d, (Graph.ofRegistry d.registry).order.filter
          (keeps o (Graph.ofRegistry d.registry)), o⟩ := by
  cases hc : (Graph.ofRegistry d.registry).cycle? with
  | some members => simp only [arrange, Registry.graph, hc]
  | none =>
    simp only [arrange, Registry.graph, hc]
    cases ho : o.eliminateUnused with
    | false =>
      have hk : keeps o (Graph.ofRegistry d.registry) = fun _ => true := by
        funext id
        simp [keeps, ho]
      simp [hk]
    | true =>
      have hk : keeps o (Graph.ofRegistry d.registry) = (Graph.ofRegistry d.registry).isUsed := by
        funext id
        simp [keeps, ho]
      simp [hk, Order.dropUnused]

theorem plan_of_discover_error {e : Error} (h : (discover w o.charset entries).value = .error e) :
    (plan w o entries).value = .error e := by
  unfold plan Logged.andThen
  rw [h]

theorem plan_of_discover_ok (h : (discover w o.charset entries).value = .ok d) :
    (plan w o entries).value = (arrange o d).value := by
  unfold plan Logged.andThen
  rw [h]

theorem plan_planned (h : (plan w o entries).value = .ok p) :
    ∃ starts : List Location, entries.map w.canonical = starts.map .ok ∧ Planned w o starts p := by
  cases hd : (discover w o.charset entries).value with
  | error e =>
    rw [plan_of_discover_error hd] at h
    cases h
  | ok d =>
    obtain ⟨starts, hs, hcomplete⟩ := Discovery.discover_complete hd
    rw [plan_of_discover_ok hd, arrange_eq] at h
    cases hc : (Graph.ofRegistry d.registry).cycle? with
    | some members =>
      rw [hc] at h
      cases h
    | none =>
      rw [hc] at h
      cases h
      exact ⟨starts, hs, hcomplete, hc, rfl, rfl⟩

/-- What makes up a plan that drops nothing. -/
structure Arranged (w : Workspace) (charset : Charset) (starts : List Location) (p : Plan) :
    Prop where
  complete : Discovery.Complete w charset starts p.registry
  acyclic : (Graph.ofRegistry p.registry).cycle? = none
  order : p.order = (Graph.ofRegistry p.registry).order

theorem plan_arranged (ho : o.eliminateUnused = false) (h : (plan w o entries).value = .ok p) :
    ∃ starts : List Location, entries.map w.canonical = starts.map .ok ∧
      Arranged w o.charset starts p := by
  obtain ⟨starts, hs, hp⟩ := plan_planned h
  refine ⟨starts, hs, hp.complete, hp.acyclic, ?_⟩
  rw [hp.order, List.filter_eq_self]
  intro id _
  simp [keeps, ho]

theorem map_location_sources (p : Plan) :
    p.sources.map Source.location = p.order.filterMap p.registry.location? := by
  rw [sources, List.map_filterMap]
  apply List.filterMap_congr
  intro i _
  exact (Registry.location?_eq p.registry i).symm

/-! ## Dependencies first -/

theorem idxOf_lt_idxOf {α : Type} [BEq α] [LawfulBEq α] {before after : List α} {x y : α}
    (hd : (before ++ x :: after).Nodup) (hy : y ∈ before) :
    (before ++ x :: after).idxOf y < (before ++ x :: after).idxOf x := by
  have hx : x ∉ before := by
    intro hx
    exact (List.nodup_append.mp hd).2.2 x hx x List.mem_cons_self rfl
  rw [List.idxOf_append_of_mem hy, List.idxOf_append_of_notMem hx]
  exact Nat.lt_add_right _ (List.idxOf_lt_length_of_mem hy)

namespace Arranged

theorem mem_sources_iff (h : Arranged w charset starts p)
    (hs : entries.map w.canonical = starts.map .ok) :
    l ∈ p.sources.map Source.location ↔ w.Reaches charset entries l := by
  rw [map_location_sources, ← h.complete.mem_locations_iff hs, List.mem_filterMap]
  constructor
  · rintro ⟨i, -, hi⟩
    exact List.mem_of_getElem? hi
  · intro hl
    obtain ⟨i, hi⟩ := List.mem_iff_getElem?.mp hl
    have hlt := Registry.lt_size_of_location? hi
    refine ⟨i, ?_, hi⟩
    rw [h.order, Graph.mem_order, Graph.size_ofRegistry]
    exact hlt

theorem nodup_sources (h : Arranged w charset starts p) :
    (p.sources.map Source.location).Nodup := by
  rw [map_location_sources, h.order]
  apply List.Nodup.filterMap _ (Graph.nodup_order _)
  intro i j l hi hj
  exact Registry.eq_of_location? hi hj

theorem split_sources (h : Arranged w charset starts p)
    (hl : l ∈ p.sources.map Source.location)
    (hm : Relation.TransGen (w.Requires charset) l m) (hne : m ≠ l) :
    ∃ before after, p.sources.map Source.location = before ++ l :: after ∧ m ∈ before := by
  rw [map_location_sources] at hl ⊢
  obtain ⟨i, -, hi⟩ := List.mem_filterMap.mp hl
  obtain ⟨j, hj, hij⟩ := h.complete.needs_of_requires hi hm.to_reflTransGen
  have hji : j ≠ i := by
    rintro rfl
    exact hne (Option.some.inj (hj.symm.trans hi))
  -- Edges to the file itself are gone, but the way is not empty: it ends at another number.
  have htrans := (Relation.reflTransGen_iff_eq_or_transGen.mp hij).resolve_left hji
  rw [← Registry.needs_ofRegistry] at htrans
  have hlt := Registry.lt_size_of_location? hi
  rw [← Graph.size_ofRegistry] at hlt
  obtain ⟨before, after, he, hb⟩ := Graph.order_split h.acyclic hlt htrans
  refine ⟨before.filterMap p.registry.location?, after.filterMap p.registry.location?, ?_, ?_⟩
  · rw [h.order, he, List.filterMap_append, List.filterMap_cons_some hi]
  · exact List.mem_filterMap.mpr ⟨j, hb, hj⟩

end Arranged

/-- A plan that drops nothing holds exactly the files within reach of the entries, each once and
behind every other file that it leads to. -/
theorem sources_topological (w : Workspace) (o : Options) (entries : List String) (p : Plan)
    (ho : o.eliminateUnused = false) (h : (plan w o entries).value = .ok p) :
    (p.sources.map Source.location).Nodup ∧
      (∀ l, l ∈ p.sources.map Source.location ↔ w.Reaches o.charset entries l) ∧
      ∀ l ∈ p.sources.map Source.location, ∀ m,
        Relation.TransGen (w.Requires o.charset) l m → m ≠ l →
          (p.sources.map Source.location).idxOf m < (p.sources.map Source.location).idxOf l := by
  obtain ⟨starts, hs, ha⟩ := plan_arranged ho h
  refine ⟨ha.nodup_sources, fun l => ha.mem_sources_iff hs, ?_⟩
  intro l hl m hm hne
  have hd := ha.nodup_sources
  obtain ⟨before, after, he, hb⟩ := ha.split_sources hl hm hne
  rw [he] at hd ⊢
  exact idxOf_lt_idxOf hd hb

def lettersPlan : Plan := ⟨Discovery.lettersFound, [1, 2, 0], {}⟩

theorem plan_letters : (plan Discovery.letters {} ["a"]).value = .ok lettersPlan := by
  have h : (arrange {} Discovery.lettersFound).value = .ok lettersPlan := by cbv
  unfold plan Logged.andThen
  rw [Discovery.discover_letters]
  exact h

theorem letters_topological : ({} : Options).eliminateUnused = false ∧
    (plan Discovery.letters {} ["a"]).value = .ok lettersPlan ∧
    ([["c"], ["b"], ["a"]] : List Location).Nodup ∧
    (∀ l, l ∈ ([["c"], ["b"], ["a"]] : List Location) ↔
      Discovery.letters.Reaches .utf8 ["a"] l) ∧
    ∀ l ∈ ([["c"], ["b"], ["a"]] : List Location), ∀ m,
      Relation.TransGen (Discovery.letters.Requires .utf8) l m → m ≠ l →
        ([["c"], ["b"], ["a"]] : List Location).idxOf m <
          ([["c"], ["b"], ["a"]] : List Location).idxOf l :=
  ⟨rfl, plan_letters, sources_topological Discovery.letters {} ["a"] lettersPlan rfl plan_letters⟩

end Plan

end SourceBundle
