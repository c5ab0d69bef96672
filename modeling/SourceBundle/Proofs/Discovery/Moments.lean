import SourceBundle.Proofs.Graph.Cycle
import SourceBundle.Proofs.Registry.Calls

/-! # The moments of a discovery

Between two files a discovery enters files one by one, first the entries and then what each file
names. Here each such step is one of its own that looks at the files at most once, so the files may
change from step to step. Every look for a record is checked, and a step that looks for a number
without a record has no outcome. But all numbers that are kept anywhere are those of records, at
every moment, so there always is one.
-/
namespace SourceBundle

namespace Registry

variable {r t : Registry} {l : Location} {id : SourceId} {ids : List SourceId}
  {contents : List Char}

/-- Sets what reading a file gave; there has to be a record. -/
def complete? (r : Registry) (id : SourceId) (contents : List Char) (dependencies : List SourceId) :
    Option Registry :=
  if id < r.size then some (r.complete id contents dependencies).1 else none

theorem size_le_enter (r : Registry) (l : Location) : r.size ≤ (r.enter l).1.size :=
  (prefix_enter r l).length_le

theorem lt_size_of_get {w : Workspace} {path : String} (h : r.get w path = .ok (t, id)) :
    id < t.size := by
  obtain ⟨l, -, he⟩ := Discovery.get_ok h
  have hl := location?_enter r l
  rw [he] at hl
  exact lt_size_of_location? hl

/-- A new record declares nothing. -/
theorem InRange.enter (h : r.InRange) (l : Location) : (r.enter l).1.InRange := by
  have hgrown := size_le_enter r l
  intro source hs d hd
  rcases Discovery.enter_sources r l with hsame | hnew
  · exact (h source (hsame ▸ hs) d hd).trans_le hgrown
  · rw [hnew] at hs
    rcases List.mem_append.mp hs with hs | hs
    · exact (h source hs d hd).trans_le hgrown
    · rw [List.mem_singleton.mp hs] at hd
      cases hd

theorem InRange.get {w : Workspace} {path : String} (h : r.InRange)
    (hget : r.get w path = .ok (t, id)) : t.InRange ∧ r.size ≤ t.size ∧ id < t.size := by
  obtain ⟨l, -, he⟩ := Discovery.get_ok hget
  have ht : (r.enter l).1 = t := by rw [he]
  exact ⟨ht ▸ h.enter l, ht ▸ r.size_le_enter l, lt_size_of_get hget⟩

@[simp] theorem size_complete (r : Registry) (id : SourceId) (contents : List Char)
    (ids : List SourceId) : (r.complete id contents ids).1.size = r.size :=
  List.length_modify ..

theorem InRange.complete (h : r.InRange) (hids : ∀ d ∈ ids, d < r.size) (id : SourceId)
    (contents : List Char) : (r.complete id contents ids).1.InRange := by
  intro source hs d hd
  rw [size_complete]
  obtain ⟨i, hi⟩ := List.mem_iff_getElem?.mp hs
  have hi : (r.complete id contents ids).1.source? i = some source := hi
  rw [source?_complete] at hi
  split at hi
  · obtain ⟨old, hold, rfl⟩ := Option.map_eq_some_iff.mp hi
    unfold record at hd
    split at hd
    · exact h old (List.mem_of_getElem? hold) d hd
    · exact hids d hd
  · exact h source (List.mem_of_getElem? hi) d hd

end Registry

namespace Discovery

/-- A file that is being read. -/
structure Reading where
  id : SourceId
  /-- Its record when it was opened. -/
  source : Source
  contents : List Char
  /-- The files found for its directives so far. -/
  dependencies : List SourceId := []
deriving DecidableEq, Repr

inductive Phase where
  /-- These entries are still to be entered. -/
  | entering (paths : List String)
  /-- The next number is to be taken from the queue. -/
  | taking
  /-- These references of the file are still to be followed. -/
  | following (f : Reading) (references : List String)
  /-- The target of a reference is a file, which is to be entered. -/
  | targeting (f : Reading) (target : String) (references : List String)
deriving DecidableEq, Repr

structure Moment where
  registry : Registry := .empty
  queue : List SourceId := []
  /-- The numbers of the entries, without repeats. -/
  entries : List SourceId := []
  phase : Phase
deriving DecidableEq, Repr

inductive Turn where
  | finished (result : Except Error Discovered)
  | next (m : Moment)

def Phase.reading? : Phase → Option Reading
  | entering _ | taking => none
  | following f _ | targeting f _ _ => some f

/-- What the file of a record says. -/
def parsed (w : Workspace) (charset : Charset) (source : Source) :
    Except Error Directive.Parsed :=
  match w.files.read source.location with
  | .error fault => .error (.read source.path fault)
  | .ok octets => Directive.parse source.path (charset.decode octets)

namespace Moment

variable {w : Workspace} {charset : Charset} {m n : Moment} {paths : List String}

def start (paths : List String) : Moment := { phase := .entering paths }

/-- The next step; it has no outcome if a number has no record. -/
def step? (w : Workspace) (charset : Charset) (m : Moment) : Option Turn :=
  match m.phase with
  | .entering [] => some (.next { m with phase := .taking })
  | .entering (path :: paths) =>
    match m.registry.get w path with
    | .error e => some (.finished (.error e))
    | .ok (registry, id) =>
      let entries := if id ∈ m.entries then m.entries else m.entries ++ [id]
      some (.next ⟨registry, m.queue ++ [id], entries, .entering paths⟩)
  | .taking =>
    match m.queue with
    | [] => some (.finished (.ok ⟨m.registry, m.entries⟩))
    | id :: queue => do
      let source ← m.registry.source? id
      if source.isRead then return .next { m with queue }
      match parsed w charset source with
      | .error e => return .finished (.error e)
      | .ok p =>
        return .next { m with queue, phase := .following ⟨id, source, p.contents, []⟩ p.requires }
  | .following f [] => do
    let registry ← m.registry.complete? f.id f.contents f.dependencies
    return .next { m with registry, phase := .taking }
  | .following f (reference :: references) =>
    let target := Directive.resolve f.source.directory reference
    if w.isFile target then some (.next { m with phase := .targeting f target references })
    else some (.finished (.error (.missingDependency target f.source.path)))
  | .targeting f target references =>
    match m.registry.get w target with
    | .error e => some (.finished (.error e))
    | .ok (registry, id) => do
      let source ← registry.source? id
      let queue := if source.isRead then m.queue else m.queue ++ [id]
      let f := { f with dependencies := f.dependencies ++ [id] }
      return .next { m with registry, queue, phase := .following f references }

/-- Every number that is kept is that of a record. -/
structure InRange (m : Moment) : Prop where
  registry : m.registry.InRange
  queue : ∀ id ∈ m.queue, id < m.registry.size
  entries : ∀ id ∈ m.entries, id < m.registry.size
  reading : ∀ f, m.phase.reading? = some f →
    f.id < m.registry.size ∧ ∀ id ∈ f.dependencies, id < m.registry.size

theorem inRange_start (paths : List String) : (start paths).InRange where
  registry _ hs := absurd hs List.not_mem_nil
  queue _ hid := absurd hid List.not_mem_nil
  entries _ hid := absurd hid List.not_mem_nil
  reading _ hf := by cases hf

end Moment

/-- What a step leads to is in range as well. -/
def Turn.InRange : Turn → Prop
  | .finished (.error _) => True
  | .finished (.ok d) => d.registry.InRange ∧ ∀ id ∈ d.entries, id < d.registry.size
  | .next m => m.InRange

namespace Moment

variable {w : Workspace} {charset : Charset} {m n : Moment} {paths : List String}

theorem forall_lt_concat {ids : List SourceId} {id k : Nat} (h : ∀ i ∈ ids, i < k) (hid : id < k) :
    ∀ i ∈ ids ++ [id], i < k :=
  List.forall_mem_append.mpr ⟨h, List.forall_mem_singleton.mpr hid⟩

/-- In range there is always a next step, and it leads to where all is in range. -/
theorem InRange.step? (h : m.InRange) (w : Workspace) (charset : Charset) :
    ∃ turn, m.step? w charset = some turn ∧ turn.InRange := by
  obtain ⟨r, queue, entries, phase⟩ := m
  obtain ⟨hr, hq, he, hf⟩ := h
  dsimp only at hr hq he hf
  cases phase with
  | entering paths =>
    cases paths with
    | nil => exact ⟨_, rfl, hr, hq, he, fun f hf => by cases hf⟩
    | cons path paths =>
      simp only [Moment.step?]
      cases hget : r.get w path with
      | error e => exact ⟨_, rfl, trivial⟩
      | ok p =>
        obtain ⟨ht, hle, hid⟩ := hr.get hget
        refine ⟨_, rfl, ht, ?_, ?_, fun f hf => by cases hf⟩
        · exact forall_lt_concat (fun i hi => (hq i hi).trans_le hle) hid
        · dsimp only
          split
          · exact fun i hi => (he i hi).trans_le hle
          · exact forall_lt_concat (fun i hi => (he i hi).trans_le hle) hid
  | taking =>
    cases queue with
    | nil => exact ⟨_, rfl, hr, he⟩
    | cons id queue =>
      have hid : id < r.size := hq id List.mem_cons_self
      have hqueue : ∀ i ∈ queue, i < r.size := fun i hi => hq i (List.mem_cons_of_mem id hi)
      obtain ⟨source, hs, -⟩ := Registry.exists_source hid
      simp only [Moment.step?, hs, Option.bind_eq_bind, Option.bind_some]
      split
      · exact ⟨_, rfl, hr, hqueue, he, hf⟩
      · cases parsed w charset source with
        | error e => exact ⟨_, rfl, trivial⟩
        | ok p =>
          refine ⟨_, rfl, hr, hqueue, he, fun f hf => ?_⟩
          cases hf
          exact ⟨hid, fun i hi => absurd hi List.not_mem_nil⟩
  | following f references =>
    obtain ⟨hid, hd⟩ := hf f rfl
    cases references with
    | nil =>
      simp only [Moment.step?, Registry.complete?, if_pos hid, Option.bind_eq_bind,
        Option.bind_some]
      refine ⟨_, rfl, hr.complete hd f.id f.contents, ?_, ?_, fun f hf => by cases hf⟩
      · simpa using hq
      · simpa using he
    | cons reference references =>
      simp only [Moment.step?]
      split
      · exact ⟨_, rfl, hr, hq, he, hf⟩
      · exact ⟨_, rfl, trivial⟩
  | targeting f target references =>
    obtain ⟨hid, hd⟩ := hf f rfl
    simp only [Moment.step?]
    cases hget : r.get w target with
    | error e => exact ⟨_, rfl, trivial⟩
    | ok p =>
      obtain ⟨ht, hle, hnew⟩ := hr.get hget
      obtain ⟨source, hs, -⟩ := Registry.exists_source hnew
      simp only [hs, Option.bind_eq_bind, Option.bind_some]
      refine ⟨_, rfl, ht, ?_, fun i hi => (he i hi).trans_le hle, fun g hg => ?_⟩
      · dsimp only
        split
        · exact fun i hi => (hq i hi).trans_le hle
        · exact forall_lt_concat (fun i hi => (hq i hi).trans_le hle) hnew
      · cases hg
        exact ⟨hid.trans_le hle, forall_lt_concat (fun i hi => (hd i hi).trans_le hle) hnew⟩

/-! ## Whole runs -/

/-- One moment follows on another; the files are as they are at that time. -/
def Follows (charset : Charset) (m n : Moment) : Prop :=
  ∃ w, m.step? w charset = some (.next n)

/-- The moments of a discovery, whatever happens to the files meanwhile. -/
def Reached (charset : Charset) (paths : List String) : Moment → Prop :=
  Relation.ReflTransGen (Follows charset) (start paths)

theorem InRange.follows (h : m.InRange) (hn : Follows charset m n) : n.InRange := by
  obtain ⟨w, hw⟩ := hn
  obtain ⟨turn, hturn, hr⟩ := h.step? w charset
  cases hw.symm.trans hturn
  exact hr

theorem Reached.inRange (h : Reached charset paths m) : m.InRange := by
  induction h with
  | refl => exact inRange_start paths
  | tail _ hn ih => exact ih.follows hn

end Moment

end Discovery

end SourceBundle
