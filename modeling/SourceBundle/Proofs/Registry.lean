import Mathlib.Data.List.Nodup
import SourceBundle.Registry

/-! # What registering and reading change

Entering appends unread records for the locations not met before, each once. Reading sets one
record and moves none.
-/
namespace SourceBundle

/-- What stands in a list stands at the same place when the list has grown at its end. -/
theorem getElem?_mono {α : Type} {xs ys : List α} {n : Nat} {x : α} (h : xs <+: ys)
    (hx : xs[n]? = some x) : ys[n]? = some x := by
  obtain ⟨rest, rfl⟩ := h
  rw [List.getElem?_append_left (List.getElem?_eq_some_iff.mp hx).1]
  exact hx

namespace Registry

variable {r t : Registry} {l : Location} {id i j : SourceId} {ls : List Location}

def locations (r : Registry) : List Location := r.sources.map Source.location

def location? (r : Registry) (id : SourceId) : Option Location := r.locations[id]?

theorem nodup_locations (r : Registry) : r.locations.Nodup := r.distinct

theorem length_locations (r : Registry) : r.locations.length = r.size := List.length_map ..

theorem location?_eq (r : Registry) (id : SourceId) :
    r.location? id = (r.source? id).map Source.location := List.getElem?_map ..

theorem lt_size_of_location? (h : r.location? id = some l) : id < r.size :=
  r.length_locations ▸ (List.getElem?_eq_some_iff.mp h).1

theorem isRead_of_source? {s : Source} (h : r.source? id = some s) : r.isRead id = s.isRead := by
  rw [isRead, h, Option.any_some]

theorem exists_source (h : id < r.size) :
    ∃ s, r.source? id = some s ∧ r.dependencies id = s.dependencies := by
  have hs : r.source? id = some r.sources[id] := List.getElem?_eq_getElem h
  exact ⟨_, hs, by rw [dependencies, hs, Option.elim_some]⟩

/-- No two records have one location. -/
theorem eq_of_location? (hi : r.location? i = some l) (hj : r.location? j = some l) : i = j := by
  have hlt := (List.getElem?_eq_some_iff.mp hi).1
  exact (List.getElem?_inj hlt r.nodup_locations).mp (hi.trans hj.symm)

theorem location?_of_prefix (h : r.locations <+: t.locations) (hi : r.location? i = some l) :
    t.location? i = some l :=
  getElem?_mono h hi

theorem idOf?_eq_some (h : r.idOf? l = some id) : r.location? id = some l := by
  obtain ⟨hlt, hl, -⟩ := List.findIdx?_eq_some_iff_getElem.mp h
  rw [location?_eq, source?, List.getElem?_eq_getElem hlt]
  simpa using hl

/-! ## Entering -/

/-- The records as they are made. -/
def unread (ls : List Location) : List Source := ls.map fun l => { location := l }

theorem map_location_unread (ls : List Location) : (unread ls).map Source.location = ls := by
  simp [unread, Function.comp_def]

theorem enter_of_mem (h : l ∈ r.locations) :
    ∃ id, r.location? id = some l ∧ r.enter l = (r, id) := by
  unfold enter
  split
  · rename_i id hid
    exact ⟨id, idOf?_eq_some hid, rfl⟩
  · rename_i hn
    exact absurd h (not_mem_of_idOf? hn)

theorem enter_of_not_mem (h : l ∉ r.locations) :
    (r.enter l).1.sources = r.sources ++ unread [l] ∧ (r.enter l).2 = r.size := by
  unfold enter
  split
  · rename_i id hid
    exact absurd (List.mem_of_getElem? (idOf?_eq_some hid)) h
  · exact ⟨rfl, rfl⟩

def enterEach (r : Registry) : List Location → Registry × List SourceId
  | [] => (r, [])
  | l :: rest =>
    let entered := r.enter l
    let others := enterEach entered.1 rest
    (others.1, entered.2 :: others.2)

/-- The locations not met before, each once, in the order of first mention. -/
def fresh (r : Registry) (ls : List Location) : List Location :=
  (ls.filter (· ∉ r.locations)).eraseDups

theorem mem_fresh : l ∈ r.fresh ls ↔ l ∈ ls ∧ l ∉ r.locations := by
  simp [fresh]

theorem fresh_cons_of_mem (h : l ∈ r.locations) : r.fresh (l :: ls) = r.fresh ls := by
  simp [fresh, h]

theorem fresh_cons_of_not_mem (h : l ∉ r.locations) (ht : t.locations = r.locations ++ [l]) :
    r.fresh (l :: ls) = l :: t.fresh ls := by
  have hf : (ls.filter (· ∉ r.locations)).filter (fun m => !m == l) =
      ls.filter (· ∉ t.locations) := by
    rw [List.filter_filter]
    apply List.filter_congr
    intro m _
    by_cases hm : m = l <;> simp [ht, hm]
  rw [fresh, List.filter_cons_of_pos (by simpa using h), List.eraseDups_cons, hf, fresh]

theorem sources_enterEach (r : Registry) (ls : List Location) :
    (r.enterEach ls).1.sources = r.sources ++ unread (r.fresh ls) := by
  induction ls generalizing r with
  | nil => simp [enterEach, fresh, unread]
  | cons l ls ih =>
    simp only [enterEach]
    rw [ih]
    by_cases h : l ∈ r.locations
    · obtain ⟨id, -, he⟩ := enter_of_mem h
      rw [he, fresh_cons_of_mem h]
    · obtain ⟨he, -⟩ := enter_of_not_mem h
      have hl : (r.enter l).1.locations = r.locations ++ [l] := by
        rw [locations, he, List.map_append, map_location_unread, locations]
      rw [he, fresh_cons_of_not_mem h hl, List.append_assoc]
      rfl

theorem locations_enterEach (r : Registry) (ls : List Location) :
    (r.enterEach ls).1.locations = r.locations ++ r.fresh ls := by
  rw [locations, sources_enterEach, List.map_append, map_location_unread, locations]

theorem prefix_enterEach (r : Registry) (ls : List Location) :
    r.locations <+: (r.enterEach ls).1.locations :=
  ⟨r.fresh ls, (locations_enterEach r ls).symm⟩

theorem location?_enter (r : Registry) (l : Location) :
    (r.enter l).1.location? (r.enter l).2 = some l := by
  by_cases h : l ∈ r.locations
  · obtain ⟨id, hid, he⟩ := enter_of_mem h
    rw [he]
    exact hid
  · obtain ⟨hs, hid⟩ := enter_of_not_mem h
    rw [location?_eq, source?, hs, hid, size]
    simp [unread]

theorem map_location?_enterEach (r : Registry) (ls : List Location) :
    (r.enterEach ls).2.map (r.enterEach ls).1.location? = ls.map some := by
  induction ls generalizing r with
  | nil => rfl
  | cons l ls ih =>
    simp only [enterEach, List.map_cons]
    rw [ih, location?_of_prefix (prefix_enterEach _ ls) (location?_enter r l)]

theorem lt_size_of_mem_enterEach (h : i ∈ (r.enterEach ls).2) : i < (r.enterEach ls).1.size := by
  have hm : (r.enterEach ls).1.location? i ∈ ls.map some := by
    rw [← map_location?_enterEach]
    exact List.mem_map_of_mem h
  obtain ⟨l, -, hl⟩ := List.mem_map.mp hm
  exact lt_size_of_location? hl.symm

theorem source?_enterEach {s : Source} (h : r.source? i = some s) :
    (r.enterEach ls).1.source? i = some s := by
  rw [source?, sources_enterEach, List.getElem?_append_left (List.getElem?_eq_some_iff.mp h).1]
  exact h

/-- A record is old, or it is unread and its number is among those entered. -/
theorem source?_of_enterEach {s : Source} (h : (r.enterEach ls).1.source? i = some s) :
    r.source? i = some s ∨ s.isRead = false ∧ s.location ∈ r.fresh ls ∧ i ∈ (r.enterEach ls).2 := by
  have hl : (r.enterEach ls).1.location? i = some s.location := by
    rw [location?_eq, h]
    rfl
  rw [source?, sources_enterEach, List.getElem?_append] at h
  split at h
  · exact Or.inl h
  · obtain ⟨l, hm, rfl⟩ := List.mem_map.mp (List.mem_of_getElem? h)
    have hids : some l ∈ (r.enterEach ls).2.map (r.enterEach ls).1.location? := by
      rw [map_location?_enterEach]
      exact List.mem_map_of_mem (mem_fresh.mp hm).1
    obtain ⟨j, hj, hjl⟩ := List.mem_map.mp hids
    exact Or.inr ⟨rfl, hm, eq_of_location? hl hjl ▸ hj⟩

theorem isRead_enterEach (r : Registry) (ls : List Location) (i : SourceId) :
    (r.enterEach ls).1.isRead i = r.isRead i := by
  cases hr : r.source? i with
  | some s => rw [isRead_of_source? (source?_enterEach hr), isRead_of_source? hr]
  | none =>
    cases he : (r.enterEach ls).1.source? i with
    | none => rw [isRead, he, isRead, hr]
    | some s =>
      rcases source?_of_enterEach he with ho | ⟨hu, -, -⟩
      · cases hr.symm.trans ho
      · rw [isRead_of_source? he, isRead, hr]
        exact hu

/-! ## Reading -/

theorem record_of_unread {s : Source} (h : s.isRead = false) (contents : List Char)
    (ids : List SourceId) :
    record s contents ids = { s with contents := some contents, dependencies := ids } := by
  simp [record, h]

theorem locations_complete (r : Registry) (id : SourceId) (contents : List Char)
    (ids : List SourceId) : (r.complete id contents ids).1.locations = r.locations :=
  map_modify_location _ _ _ fun s => record_location s contents ids

theorem location?_complete (r : Registry) (id : SourceId) (contents : List Char)
    (ids : List SourceId) : (r.complete id contents ids).1.location? = r.location? := by
  funext i
  rw [location?, locations_complete, location?]

theorem source?_complete (r : Registry) (id : SourceId) (contents : List Char)
    (ids : List SourceId) (i : SourceId) :
    (r.complete id contents ids).1.source? i =
      if i = id then (r.source? i).map (record · contents ids) else r.source? i := by
  simp only [complete, source?, List.getElem?_modify]
  by_cases h : i = id
  · simp [h]
  · simp [h, Ne.symm h]

theorem isRead_record (s : Source) (contents : List Char) (ids : List SourceId) :
    (record s contents ids).isRead = true := by
  unfold record
  split
  · assumption
  · rfl

theorem isRead_complete {s : Source} (hs : r.source? id = some s) (contents : List Char)
    (ids : List SourceId) (i : SourceId) :
    (r.complete id contents ids).1.isRead i = (i == id || r.isRead i) := by
  rw [isRead, source?_complete]
  by_cases hi : i = id
  · subst hi
    simp [hs, isRead_record]
  · simp [hi, isRead]

end Registry

end SourceBundle
