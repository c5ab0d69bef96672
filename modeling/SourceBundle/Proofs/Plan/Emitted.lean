import SourceBundle.Proofs.Emission
import SourceBundle.Proofs.Graph.Dependents

/-! # What a plan writes, file by file

Which files a plan writes, in which order and with which contents can be said of their locations:
the numbers that a run gives them do not show.
-/
namespace SourceBundle

open PostOrder (Emits)

variable {w : Workspace} {charset : Charset} {starts : List Location} {entries : List String}
  {r : Registry} {i : SourceId} {l : Location}

namespace Workspace

/-- The file needs another, or another within reach needs it. -/
def Used (w : Workspace) (charset : Charset) (entries : List String) (l : Location) : Prop :=
  (∃ m, w.Needs charset l m) ∨ ∃ m, w.Reaches charset entries m ∧ w.Needs charset m l

open Classical in
/-- Whether the options let a file within reach be written. -/
noncomputable def keeps (w : Workspace) (o : Options) (entries : List String) (l : Location) :
    Bool :=
  !o.eliminateUnused || decide (w.Used o.charset entries l)

theorem keeps_iff {o : Options} :
    w.keeps o entries l = true ↔ (o.eliminateUnused = true → w.Used o.charset entries l) := by
  unfold keeps
  cases o.eliminateUnused <;> simp

/-- What is written for a file. -/
def written (w : Workspace) (o : Options) (l : Location) : List Char :=
  (if o.separator then ("\n/*------" ++ l.name ++ "------*/\n").toList else []) ++
    (w.parsed? o.charset l).elim [] Directive.Parsed.contents

end Workspace

theorem Source.Faithful.contents_eq {s : Source} (h : s.Faithful w charset r) :
    s.contents = (w.parsed? charset s.location).map Directive.Parsed.contents := by
  obtain ⟨octets, parsed, -, hread, hparse, hcontents, -⟩ := h
  have hparse' : Directive.parse s.location.text (charset.decode octets) = .ok parsed := hparse
  simp only [hcontents, Workspace.parsed?, hread, hparse']
  rfl

theorem Discovery.Complete.isUsed_iff (h : Complete w charset starts r)
    (hs : entries.map w.canonical = starts.map .ok) (hi : r.location? i = some l) :
    (Graph.ofRegistry r).isUsed i = true ↔ w.Used charset entries l := by
  have hlt := Registry.lt_size_of_location? hi
  have hl : r.locationOf i = l := by rw [Registry.locationOf, hi, Option.getD_some]
  rw [← Graph.size_ofRegistry] at hlt
  rw [Graph.isUsed_iff (Graph.counted_ofRegistry r) hlt, Registry.needs_ofRegistry]
  refine or_congr ⟨?_, ?_⟩ ⟨?_, ?_⟩
  · rintro ⟨j, hij⟩
    exact ⟨r.locationOf j, hl ▸ h.needs_locationOf hij⟩
  · rintro ⟨m, hm⟩
    obtain ⟨j, -, hij⟩ := h.exists_needs hi hm
    exact ⟨j, hij⟩
  · rintro ⟨k, hk, hki⟩
    have hloc := Registry.location?_locationOf (Graph.size_ofRegistry r ▸ hk)
    refine ⟨r.locationOf k, (h.mem_locations_iff hs).mp (List.mem_of_getElem? hloc), ?_⟩
    exact hl ▸ h.needs_locationOf hki
  · rintro ⟨m, hm, hml⟩
    obtain ⟨k, hk⟩ := List.mem_iff_getElem?.mp ((h.mem_locations_iff hs).mpr hm)
    obtain ⟨j, hj, hkj⟩ := h.exists_needs hk hml
    obtain rfl := Registry.eq_of_location? hj hi
    exact ⟨k, Graph.size_ofRegistry r ▸ Registry.lt_size_of_location? hk, hkj⟩

namespace Plan

variable {o : Options} {p : Plan}

theorem Planned.keeps_eq (h : Planned w o starts p) (hs : entries.map w.canonical = starts.map .ok)
    (hi : p.registry.location? i = some l) :
    keeps o (Graph.ofRegistry p.registry) i = w.keeps o entries l := by
  have hused := h.complete.isUsed_iff hs hi
  rw [Bool.eq_iff_iff, Workspace.keeps_iff, ← hused, keeps]
  cases o.eliminateUnused <;> simp

theorem Planned.mem_sources_iff (h : Planned w o starts p)
    (hs : entries.map w.canonical = starts.map .ok) :
    l ∈ p.sources.map Source.location ↔ w.Reaches o.charset entries l ∧ w.keeps o entries l := by
  rw [map_location_sources, h.order, ← h.complete.mem_locations_iff hs, List.mem_filterMap]
  constructor
  · rintro ⟨i, hi, hl⟩
    exact ⟨List.mem_of_getElem? hl, h.keeps_eq hs hl ▸ (List.mem_filter.mp hi).2⟩
  · rintro ⟨hl, hk⟩
    obtain ⟨i, hi⟩ := List.mem_iff_getElem?.mp hl
    have hlt := Registry.lt_size_of_location? hi
    rw [← Graph.size_ofRegistry] at hlt
    exact ⟨i, List.mem_filter.mpr ⟨Graph.mem_order.mpr hlt, (h.keeps_eq hs hi).trans hk⟩, hi⟩

/-- The plain recursion over the directives, started from the entries, leaves the files in the order
in which a plan writes those that it keeps. -/
theorem Planned.exists_emits (h : Planned w o starts p)
    (hs : entries.map w.canonical = starts.map .ok) :
    ∃ t : PostOrder.State Location, Emits (w.targets o.charset) {} starts t ∧
      p.sources.map Source.location = t.order.filter (w.keeps o entries) := by
  have hc := h.complete
  obtain ⟨t, ht, horder⟩ := Graph.order_emits hc.inRange.closed
  rw [Graph.nodes, Graph.size_ofRegistry] at ht
  have hdeps := Emits.of_needs_eraseDups
    (fun id => Graph.dependencies_ofRegistry p.registry id) ht
  refine ⟨t.map p.registry.locationOf, hc.emits_starts (hc.emits_locations hdeps), ?_⟩
  have hlt : ∀ id ∈ t.order, id < p.registry.size := by
    intro id hid
    rw [← Graph.size_ofRegistry]
    exact Graph.mem_order.mp (horder ▸ hid)
  have hkeeps : ∀ id ∈ t.order, keeps o (Graph.ofRegistry p.registry) id =
      w.keeps o entries (p.registry.locationOf id) :=
    fun id hid => h.keeps_eq hs (Registry.location?_locationOf (hlt id hid))
  rw [map_location_sources, h.order, horder, List.filter_congr hkeeps,
    Registry.filterMap_location? fun id hid => hlt id (List.mem_of_mem_filter hid)]
  simp only [PostOrder.State.map, List.filter_map]
  rfl

theorem Planned.output_eq (h : Planned w o starts p) :
    Emission.output o p.sources = (p.sources.map Source.location).flatMap (w.written o) := by
  rw [Emission.output, List.flatMap_map]
  apply List.flatMap_congr
  intro source hm
  obtain ⟨id, -, hs⟩ := List.mem_filterMap.mp hm
  rw [(h.complete.faithful source (List.mem_of_getElem? hs)).contents_eq, Workspace.written]
  cases w.parsed? o.charset source.location <;> rfl

end Plan

end SourceBundle
