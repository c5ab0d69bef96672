import SourceBundle.Error
import SourceBundle.FileSystem.Workspace

/-! # The registry of sources

One record for each physical file, known by its location and numbered in the order in which
files are first met. No two records have one location. A record is read once: its contents and
dependencies are set together and never change after that.
-/
namespace SourceBundle

/-- The number of a record, in the order of first meeting. -/
abbrev SourceId := Nat

structure Source where
  location : Location
  /-- The text without directives, once the file has been read. -/
  contents : Option (List Char) := none
  /-- What the directives name, in the order they stand in the file. -/
  dependencies : List SourceId := []
deriving DecidableEq, Repr, Inhabited

namespace Source

def path (s : Source) : String := s.location.text

def directory (s : Source) : String := s.location.parent.text

def name (s : Source) : String := s.location.name

def isRead (s : Source) : Bool := s.contents.isSome

end Source

structure Registry where
  sources : List Source := []
  distinct : (sources.map Source.location).Nodup := by simp
deriving DecidableEq, Repr

namespace Registry

def empty : Registry := {}

instance : Inhabited Registry := ⟨empty⟩

def size (r : Registry) : Nat := r.sources.length

def source? (r : Registry) (id : SourceId) : Option Source := r.sources[id]?

def idOf? (r : Registry) (l : Location) : Option SourceId :=
  r.sources.findIdx? (·.location = l)

def isRead (r : Registry) (id : SourceId) : Bool := (r.source? id).any Source.isRead

def dependencies (r : Registry) (id : SourceId) : List SourceId :=
  (r.source? id).elim [] Source.dependencies

def path (r : Registry) (id : SourceId) : String := (r.source? id).elim "" Source.path

theorem not_mem_of_idOf? {r : Registry} {l : Location} (h : r.idOf? l = none) :
    l ∉ r.sources.map Source.location := by
  intro hl
  obtain ⟨s, hs, rfl⟩ := List.mem_map.mp hl
  have := List.findIdx?_eq_none_iff.mp h s hs
  simp at this

/-- The number of the record for a location, which is made on first use. -/
def enter (r : Registry) (l : Location) : Registry × SourceId :=
  match h : r.idOf? l with
  | some id => (r, id)
  | none =>
    (⟨r.sources ++ [{ location := l }], by
      have hl := not_mem_of_idOf? h
      have hd := r.distinct
      rw [List.map_append, List.nodup_append]
      refine ⟨hd, by simp, ?_⟩
      intro a ha b hb
      simp only [List.map_cons, List.map_nil, List.mem_singleton] at hb
      subst hb
      intro he
      exact hl (he ▸ ha)⟩, r.size)

/-- Sets what reading the file gave, unless it has been read before. -/
def record (s : Source) (contents : List Char) (dependencies : List SourceId) : Source :=
  if s.isRead then s else { s with contents := some contents, dependencies }

theorem record_location (s : Source) (contents : List Char) (dependencies : List SourceId) :
    (record s contents dependencies).location = s.location := by
  unfold record
  split <;> rfl

theorem map_modify_location (sources : List Source) (id : SourceId) (f : Source → Source)
    (h : ∀ s, (f s).location = s.location) :
    (sources.modify id f).map Source.location = sources.map Source.location := by
  apply List.ext_getElem?
  intro i
  simp only [List.getElem?_map, List.getElem?_modify]
  cases sources[i]? with
  | none => simp
  | some s => by_cases hi : id = i <;> simp [hi, h]

/-- The registry after reading a file; the second part says whether this was its first
reading. -/
def complete (r : Registry) (id : SourceId) (contents : List Char)
    (dependencies : List SourceId) : Registry × Bool :=
  (⟨r.sources.modify id (record · contents dependencies), by
      rw [map_modify_location _ _ _ fun s => record_location s contents dependencies]
      exact r.distinct⟩,
    (r.source? id).any (!·.isRead))

def get (r : Registry) (w : Workspace) (path : String) : Except Error (Registry × SourceId) :=
  match w.canonical path with
  | .ok l => .ok (r.enter l)
  | .error fault => .error (.read path fault)

def lookup (r : Registry) (w : Workspace) (path : String) : Option SourceId :=
  match w.canonical path with
  | .ok l => r.idOf? l
  | .error _ => none

/-! ## What is declared -/

theorem mem_of_mem_dependencies {r : Registry} {i j : SourceId} (h : j ∈ r.dependencies i) :
    ∃ s ∈ r.sources, r.source? i = some s ∧ j ∈ s.dependencies := by
  unfold dependencies at h
  cases hs : r.source? i with
  | none => rw [hs] at h; cases h
  | some s =>
    rw [hs] at h
    exact ⟨s, List.mem_of_getElem? hs, rfl, h⟩

theorem lt_size_of_mem_dependencies {r : Registry} {i j : SourceId} (h : j ∈ r.dependencies i) :
    i < r.size := by
  obtain ⟨source, -, hi, -⟩ := mem_of_mem_dependencies h
  exact (List.getElem?_eq_some_iff.mp hi).1

theorem lt_size_of_dependencies_ne_nil {r : Registry} {id : SourceId}
    (h : r.dependencies id ≠ []) : id < r.size := by
  obtain ⟨dependency, hm⟩ := List.exists_mem_of_ne_nil _ h
  exact lt_size_of_mem_dependencies hm

end Registry

end SourceBundle
