import SourceBundle.Proofs.Discovery.Sequence
import SourceBundle.Proofs.Plan.Order

/-! # The entries of a discovery

The entries are the first records, and every record is within reach of one of them.
-/
namespace SourceBundle.Discovery

variable {w : Workspace} {charset : Charset} {entries : List String} {starts : List Location}
  {d : Discovered} {id : SourceId}

theorem discover_entries (h : (discover w charset entries).value = .ok d)
    (hs : entries.map w.canonical = starts.map .ok) :
    d.entries = List.range starts.eraseDups.length := by
  simp only [discover, enterAll_of_canonical hs, Logged.map] at h
  cases hr : (run w charset ⟨(Registry.empty.enterEach starts).1, _, #[]⟩).value with
  | error e =>
    rw [hr] at h
    cases h
  | ok r =>
    rw [hr] at h
    cases h
    exact Registry.eraseDups_enterEach_empty starts

/-- The entries of a discovery that succeeds are the numbers of the places where it starts. -/
theorem map_location?_entries (h : (discover w charset entries).value = .ok d) :
    ∃ starts : List Location, Complete w charset starts d.registry ∧
      d.entries.map d.registry.location? = starts.eraseDups.map some := by
  obtain ⟨starts, hs, hc⟩ := discover_complete h
  refine ⟨starts, hc, ?_⟩
  rw [discover_entries h hs, Registry.map_location?_range hc.entered]

theorem lt_size_of_mem_entries (h : (discover w charset entries).value = .ok d)
    (hid : id ∈ d.entries) : id < d.registry.size := by
  obtain ⟨starts, -, hentries⟩ := map_location?_entries h
  have hm : d.registry.location? id ∈ starts.eraseDups.map some :=
    hentries ▸ List.mem_map_of_mem hid
  obtain ⟨l, -, hl⟩ := List.mem_map.mp hm
  exact Registry.lt_size_of_location? hl.symm

/-- Every record is needed by an entry, at whatever distance. -/
theorem exists_entry_needs (h : (discover w charset entries).value = .ok d)
    (hid : id < d.registry.size) :
    ∃ entry ∈ d.entries, Relation.ReflTransGen d.registry.Needs entry id := by
  obtain ⟨starts, hc, hentries⟩ := map_location?_entries h
  obtain ⟨l, hl⟩ : ∃ l, d.registry.location? id = some l :=
    ⟨_, List.getElem?_eq_getElem (d.registry.length_locations ▸ hid)⟩
  obtain ⟨start, hstart, hreach⟩ := hc.reached _ (List.mem_of_getElem? hl)
  have hm : some start ∈ d.entries.map d.registry.location? :=
    hentries ▸ List.mem_map_of_mem (List.mem_eraseDups.mpr hstart)
  obtain ⟨entry, hentry, he⟩ := List.mem_map.mp hm
  obtain ⟨j, hj, hneeds⟩ := hc.needs_of_requires he hreach
  obtain rfl := Registry.eq_of_location? hj hl
  exact ⟨entry, hentry, hneeds⟩

end SourceBundle.Discovery
