import SourceBundle.Listing
import SourceBundle.Proofs.Discovery.Replay
import SourceBundle.Proofs.Graph.Marks
import SourceBundle.Proofs.Plan.Order
import SourceBundle.Proofs.Tree.Cycle
import SourceBundle.Proofs.Tree.Lookup

/-! # Every number leads to its record

What follows discovery keeps files by their numbers, and looks a record up where it needs a path or
what a file declares. Here each such look is checked, so that a number without a record leaves a
report, a plan or a list without an outcome. No number that discovery has given out is one.
-/
namespace SourceBundle

theorem mapM_eq_filterMap {α β : Type} {f : α → Option β} {xs : List α}
    (h : ∀ x ∈ xs, ∃ y, f x = some y) : xs.mapM f = some (xs.filterMap f) := by
  induction xs with
  | nil => rfl
  | cons x xs ih =>
    obtain ⟨y, hy⟩ := h x List.mem_cons_self
    have hrest := ih fun z hz => h z (List.mem_cons_of_mem x hz)
    rw [List.mapM_cons, hy, hrest, List.filterMap_cons_some hy]
    rfl

theorem mapM_eq_map {α β : Type} {f : α → Option β} {g : α → β} {xs : List α}
    (h : ∀ x ∈ xs, f x = some (g x)) : xs.mapM f = some (xs.map g) := by
  rw [mapM_eq_filterMap fun x hx => ⟨g x, h x hx⟩, List.filterMap_congr h]
  exact congrArg some (congrFun (List.filterMap_eq_map (f := g)) xs)

/-! ## Looks that are checked -/

namespace Registry

def path? (r : Registry) (id : SourceId) : Option String := (r.source? id).map Source.path

def cycleError? (r : Registry) (members : List SourceId) : Option Error := do
  let paths ← members.mapM r.path?
  return .cycleDetected (String.intercalate " -> " paths)

def graph? (r : Registry) : Option (Except Error Graph) := do
  let g ← Graph.ofRegistry? r
  match ← g.search? with
  | some members => return .error (← r.cycleError? members)
  | none => return .ok g

end Registry

/-- The count is looked up only if the row is empty. -/
def Graph.isUsed? (g : Graph) (id : SourceId) : Option Bool := do
  let row ← g.edges[id]?
  if row.isEmpty then
    let count ← g.dependents[id]?
    return 0 < count
  else return true

/-- The record of a file that is left out is looked up for the log. -/
def Order.dropUnused? (g : Graph) (r : Registry) : Order → Option (Logged Order)
  | [] => some ⟨[], []⟩
  | id :: rest => do
    if ← g.isUsed? id then
      let kept ← dropUnused? g r rest
      return ⟨id :: kept.value, kept.log⟩
    else
      let path ← r.path? id
      let kept ← dropUnused? g r rest
      return ⟨kept.value,
        ⟨.debug, .order, "Eliminating unused file '" ++ path ++ "'", false⟩ :: kept.log⟩

namespace Plan

def arrange? (o : Options) (d : Discovered) : Option (Logged (Except Error Plan)) := do
  let lines := Graph.selfReferences d.registry
  match ← d.registry.graph? with
  | .error e => return ⟨.error e, lines⟩
  | .ok g =>
    let order ← g.order?
    if o.eliminateUnused then
      let kept ← Order.dropUnused? g d.registry order
      return ⟨.ok ⟨d, kept.value, o⟩, lines ++ kept.log⟩
    else return ⟨.ok ⟨d, order, o⟩, lines⟩

def sources? (p : Plan) : Option (List Source) := p.order.mapM p.registry.source?

end Plan

def Listing.items? (p : Plan) : Option (List Item) := do
  let sources ← p.sources?
  sources.mapM fun s => do return ⟨s.path, ← s.dependencies.mapM p.registry.path?⟩

/-! ## They find what they look for -/

variable {r : Registry} {g : Graph} {id i n : Nat} {members : List SourceId} {order : Order}
  {o : Options} {d : Discovered} {p : Plan}

theorem Registry.path?_eq (h : id < r.size) : r.path? id = some (r.path id) := by
  obtain ⟨source, hs, -⟩ := exists_source h
  rw [path?, path, hs]
  rfl

/-- A cycle that is found is made of nodes. -/
theorem Graph.lt_size_of_mem_cycle? (hg : g.Closed) (h : g.cycle? = some members)
    (hi : i ∈ members) : i < g.size := by
  obtain ⟨s, node, hs, hc, rfl⟩ := Walk.findCycle_induction
    (fun s t hm => hm.tracked) (Walk.tracked_begin g) h
  have hnode := hs.mem_nodes hg hc
  obtain ⟨before, rest, hcut, -, hloop⟩ := Walk.exists_loop hnode
  have hmem : i ∈ s.nodes := by
    rw [hloop] at hi
    rcases List.mem_append.mp hi with hi | hi
    · exact List.mem_reverse.mp (hcut ▸ List.mem_append_right before hi)
    · exact List.mem_singleton.mp hi ▸ hnode
  exact hs.parted.mem_iff.mp (Or.inr (Or.inl hmem))

theorem Registry.cycleError?_eq (h : ∀ i ∈ members, i < r.size) :
    r.cycleError? members = some (r.cycleError members) := by
  rw [cycleError?, mapM_eq_map fun i hi => path?_eq (h i hi)]
  rfl

theorem Registry.InRange.graph?_eq (h : r.InRange) : r.graph? = some r.graph := by
  rw [graph?, Graph.ofRegistry?_eq_some_iff.mpr ⟨h, rfl⟩]
  simp only [Option.bind_eq_bind, Option.bind_some, Graph.search?_eq h.closed, graph]
  cases hc : (Graph.ofRegistry r).cycle? with
  | none => rfl
  | some members =>
    have hmembers : ∀ i ∈ members, i < r.size := fun i hi =>
      Graph.size_ofRegistry r ▸ Graph.lt_size_of_mem_cycle? h.closed hc hi
    simp only [cycleError?_eq hmembers]
    rfl

theorem Graph.Sized.isUsed?_eq (h : Sized n g) (hid : id < n) :
    g.isUsed? id = some (g.isUsed id) := by
  have hcount : g.dependents[id]? = some (g.dependentCount id) := by
    rw [dependentCount, List.getElem?_eq_getElem (h.dependents.symm ▸ hid), Option.getD_some]
  simp only [isUsed?, isUsed, getElem?_edges (h.edges.symm ▸ hid), hcount, Option.bind_eq_bind,
    Option.bind_some]
  cases (g.dependencies id).isEmpty <;> rfl

theorem Order.dropUnused?_eq (hg : g.Sized r.size) (h : ∀ id ∈ order, id < r.size) :
    dropUnused? g r order = some (order.dropUnused g r) := by
  induction order with
  | nil => rfl
  | cons id rest ih =>
    obtain ⟨hid, hrest⟩ := List.forall_mem_cons.mp h
    simp only [dropUnused?, hg.isUsed?_eq hid, Registry.path?_eq hid, ih hrest,
      Option.bind_eq_bind, Option.bind_some]
    cases hu : g.isUsed id <;> simp [dropUnused, hu]

/-- The numbers that an order of the files holds are those of the records. -/
theorem Registry.lt_size_of_mem_order (h : id ∈ (Graph.ofRegistry r).order) : id < r.size := by
  rwa [Graph.mem_order, Graph.size_ofRegistry] at h

namespace Plan

theorem arrange?_eq (h : d.registry.InRange) (o : Options) : arrange? o d = some (arrange o d) := by
  simp only [arrange?, h.graph?_eq, arrange, Option.bind_eq_bind, Option.bind_some]
  unfold Registry.graph
  cases (Graph.ofRegistry d.registry).cycle? with
  | some members => rfl
  | none =>
    have hdrop := Order.dropUnused?_eq (Graph.sized_ofRegistry h) fun id hid =>
      Registry.lt_size_of_mem_order hid
    simp only [Graph.order?_eq h.closed, hdrop, Option.bind_some]
    split_ifs <;> rfl

theorem eq_of_arrange (h : (arrange o d).value = .ok p) :
    p = ⟨d, (Graph.ofRegistry d.registry).order.filter (keeps o (Graph.ofRegistry d.registry)),
      o⟩ := by
  rw [arrange_eq] at h
  split at h
  · cases h
  · exact (Except.ok.inj h).symm

theorem sources?_eq (h : ∀ id ∈ p.order, id < p.registry.size) : p.sources? = some p.sources :=
  mapM_eq_filterMap fun id hid =>
    let ⟨source, hs, _⟩ := Registry.exists_source (h id hid)
    ⟨source, hs⟩

end Plan

theorem Listing.items?_eq (hr : p.registry.InRange) (h : ∀ id ∈ p.order, id < p.registry.size) :
    items? p = some (items p) := by
  rw [items?, Plan.sources?_eq h]
  refine mapM_eq_map fun source hm => ?_
  obtain ⟨id, -, hs⟩ := List.mem_filterMap.mp hm
  have hpaths : source.dependencies.mapM p.registry.path? =
      some (source.dependencies.map p.registry.path) :=
    mapM_eq_map fun d hd => Registry.path?_eq (hr source (List.mem_of_getElem? hs) d hd)
  rw [hpaths]
  rfl

/-! ## What discovery leaves -/

/-- Whatever is made of the files finds all that it looks for. -/
structure Discovered.Resolves (d : Discovered) : Prop where
  entries : ∀ id ∈ d.entries, id < d.registry.size
  dependencies : d.registry.InRange
  built : Graph.ofRegistry? d.registry = some (Graph.ofRegistry d.registry)
  searched : d.registry.graph? = some d.registry.graph
  ordered : (Graph.ofRegistry d.registry).order? = some (Graph.ofRegistry d.registry).order
  dropped :
    let g := Graph.ofRegistry d.registry
    Order.dropUnused? g d.registry g.order = some (Order.dropUnused g.order g d.registry)
  grown : ∀ depth,
    Tree.forest? d.registry depth d.entries = some (Tree.forest d.registry depth d.entries)
  arranged : ∀ o, Plan.arrange? o d = some (Plan.arrange o d)
  listed : ∀ o p, (Plan.arrange o d).value = .ok p →
    p.sources? = some p.sources ∧ Listing.items? p = some (Listing.items p)

namespace Discovery

variable {w : Workspace} {charset : Charset} {m : Moment} {result : Except Error Discovered}

theorem Ends.inRange (h : Ends w charset m result) (hm : m.InRange) :
    (Turn.finished result).InRange := by
  induction h with
  | finished h =>
    obtain ⟨turn, hturn, hr⟩ := hm.step? w charset
    cases h.symm.trans hturn
    exact hr
  | next h _ ih => exact ih (hm.follows ⟨w, h⟩)

theorem Turn.InRange.resolves (h : (Turn.finished (.ok d)).InRange) : d.Resolves := by
  obtain ⟨hr, he⟩ := h
  have hordered : ∀ id ∈ (Graph.ofRegistry d.registry).order, id < d.registry.size :=
    fun id hid => Registry.lt_size_of_mem_order hid
  refine ⟨he, hr, Graph.ofRegistry?_eq_some_iff.mpr ⟨hr, rfl⟩, hr.graph?_eq,
    Graph.order?_eq hr.closed, Order.dropUnused?_eq (Graph.sized_ofRegistry hr) hordered,
    Tree.forest?_eq hr he, Plan.arrange?_eq hr, fun o p hp => ?_⟩
  obtain rfl := Plan.eq_of_arrange hp
  have hkept : ∀ id ∈ (Graph.ofRegistry d.registry).order.filter
      (Plan.keeps o (Graph.ofRegistry d.registry)), id < d.registry.size :=
    fun id hid => hordered id (List.mem_of_mem_filter hid)
  exact ⟨Plan.sources?_eq hkept, Listing.items?_eq hr hkept⟩

/-- Whatever happens to the files meanwhile, at every moment of a discovery the numbers in the
queue, of the entries and in all lists of dependencies are those of records, so that the next step
finds its records. These moments end as the discovery does, and of what it leaves every look for a
number finds what it looks for. -/
theorem numbers_in_range (charset : Charset) (paths : List String) :
    (∀ m, Moment.Reached charset paths m → m.InRange ∧
      ∀ w, ∃ turn, m.step? w charset = some turn ∧ ∀ d, turn = .finished (.ok d) → d.Resolves) ∧
    ∀ w, Ends w charset (.start paths) (discover w charset paths).value ∧
      ∀ d, (discover w charset paths).value = .ok d → d.Resolves := by
  refine ⟨fun m hm => ⟨hm.inRange, fun w => ?_⟩, fun w => ?_⟩
  · obtain ⟨turn, hturn, hr⟩ := hm.inRange.step? w charset
    refine ⟨turn, hturn, ?_⟩
    rintro d rfl
    exact hr.resolves
  · have hends := ends_discover w charset paths
    refine ⟨hends, fun d hd => ?_⟩
    have hr := hends.inRange (Moment.inRange_start paths)
    rw [hd] at hr
    exact hr.resolves

/-- Two files that name each other, when the first reference of the first one has been followed. -/
def halfway : Moment where
  registry := ⟨[{ location := ["a"] }, { location := ["b"] }], by decide⟩
  queue := [1]
  entries := [0]
  phase := .following ⟨0, { location := ["a"] }, ['x'], [1]⟩ ["a"]

theorem reached_halfway : Moment.Reached .utf8 ["a"] halfway := by
  have hentered : (Moment.start ["a"]).step? Tree.knot .utf8 =
      some (.next ⟨⟨[{ location := ["a"] }], by decide⟩, [0], [0], .entering []⟩) := by
    cbv
  have hparsed : Moment.step? Tree.knot .utf8
      ⟨⟨[{ location := ["a"] }], by decide⟩, [0], [0], .taking⟩ =
        some (.next ⟨⟨[{ location := ["a"] }], by decide⟩, [], [0],
          .following ⟨0, { location := ["a"] }, ['x'], []⟩ ["b", "a"]⟩) := by
    cbv
  have hfile : Moment.step? Tree.knot .utf8
      ⟨⟨[{ location := ["a"] }], by decide⟩, [], [0],
        .following ⟨0, { location := ["a"] }, ['x'], []⟩ ["b", "a"]⟩ =
        some (.next ⟨⟨[{ location := ["a"] }], by decide⟩, [], [0],
          .targeting ⟨0, { location := ["a"] }, ['x'], []⟩ "/b" ["a"]⟩) := by
    cbv
  have hnumbered : Moment.step? Tree.knot .utf8
      ⟨⟨[{ location := ["a"] }], by decide⟩, [], [0],
        .targeting ⟨0, { location := ["a"] }, ['x'], []⟩ "/b" ["a"]⟩ = some (.next halfway) := by
    cbv
  exact .head ⟨_, hentered⟩ <| .head ⟨Tree.knot, rfl⟩ <| .head ⟨_, hparsed⟩ <|
    .head ⟨_, hfile⟩ <| .single ⟨_, hnumbered⟩

/-- Even if all files are gone then, there is a next step; if none is, the circle is reported. -/
theorem knot_in_range : Moment.Reached .utf8 ["a"] halfway ∧ halfway.InRange ∧
    (∃ turn, halfway.step? ⟨⟨[]⟩, []⟩ .utf8 = some turn) ∧
    (discover Tree.knot .utf8 ["a"]).value = .ok Tree.knotFound ∧
    Tree.knotFound.registry.graph? = some (.error (.cycleDetected "/a -> /b -> /a")) ∧
    Tree.forest? Tree.knotFound.registry none [0] =
      some [.node 0 .plain [.node 1 .plain [.leaf 0 .cycle], .leaf 0 .cycle]] := by
  obtain ⟨hmoments, hwhole⟩ := numbers_in_range .utf8 ["a"]
  obtain ⟨hrange, hstep⟩ := hmoments halfway reached_halfway
  obtain ⟨turn, hturn, -⟩ := hstep ⟨⟨[]⟩, []⟩
  have hfound := (hwhole Tree.knot).2 Tree.knotFound Tree.discover_knot
  have hgraph : Tree.knotFound.registry.graph = .error (.cycleDetected "/a -> /b -> /a") := by cbv
  have hforest : Tree.forest Tree.knotFound.registry none [0] =
      [.node 0 .plain [.node 1 .plain [.leaf 0 .cycle], .leaf 0 .cycle]] := by cbv
  exact ⟨reached_halfway, hrange, ⟨turn, hturn⟩, Tree.discover_knot,
    hgraph ▸ hfound.searched, hforest ▸ hfound.grown none⟩

end Discovery

end SourceBundle
