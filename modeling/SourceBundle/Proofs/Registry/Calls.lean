import Mathlib.Data.List.Infix
import SourceBundle.Proofs.Registry

/-! # Calls on a registry while the files change

Every call sees a workspace of its own, so anything may happen to the files between two calls. The
registry only grows, sets a record at most once, and finds a record by the location that a path
leads to at the moment of the call. An index that is kept beside the records stays in step with
them.
-/
namespace SourceBundle

/-- Nothing has been set yet. -/
def Source.IsUnset (s : Source) : Prop := s.contents = none ∧ s.dependencies = []

namespace Registry

variable {r s t : Registry} {l m : Location} {i j : SourceId} {w : Workspace} {path : String}

inductive Call where
  | get (w : Workspace) (path : String)
  | lookup (w : Workspace) (path : String)
  | complete (id : SourceId) (contents : List Char) (dependencies : List SourceId)

inductive Answer where
  | number (id : SourceId)
  | failure (e : Error)
  | found (id? : Option SourceId)
  | first (isFirst : Bool)
deriving DecidableEq, Repr

/-- The registry after a call. -/
def call (r : Registry) : Call → Registry
  | .get w path =>
    match r.get w path with
    | .ok (t, _) => t
    | .error _ => r
  | .lookup _ _ => r
  | .complete id contents ids => (r.complete id contents ids).1

def answer (r : Registry) : Call → Answer
  | .get w path =>
    match r.get w path with
    | .ok (_, id) => .number id
    | .error e => .failure e
  | .lookup w path => .found (r.lookup w path)
  | .complete id contents ids => .first (r.complete id contents ids).2

def after (r : Registry) (calls : List Call) : Registry := calls.foldl call r

/-! ## Looking up -/

theorem idOf?_eq_some_iff : r.idOf? l = some i ↔ r.location? i = some l := by
  refine ⟨idOf?_eq_some, fun h => ?_⟩
  cases hid : r.idOf? l with
  | none => exact absurd (List.mem_of_getElem? h) (not_mem_of_idOf? hid)
  | some j => rw [eq_of_location? (idOf?_eq_some hid) h]

theorem lookup_eq_some_iff :
    r.lookup w path = some i ↔ ∃ l, w.canonical path = .ok l ∧ r.location? i = some l := by
  unfold lookup
  cases w.canonical path with
  | error fault => simp
  | ok l => simp [idOf?_eq_some_iff]

theorem enter_of_idOf? (h : r.idOf? l = some i) : r.enter l = (r, i) := by
  obtain ⟨j, hj, he⟩ := enter_of_mem (List.mem_of_getElem? (idOf?_eq_some h))
  rw [he, eq_of_location? hj (idOf?_eq_some h)]

theorem enter_of_idOf?_eq_none (h : r.idOf? l = none) :
    (r.enter l).1.sources = r.sources ++ [{ location := l }] ∧ (r.enter l).2 = r.size :=
  enter_of_not_mem (not_mem_of_idOf? h)

theorem idOf?_of_append (h : t.sources = r.sources ++ [{ location := l }]) (hl : r.idOf? l = none)
    (m : Location) : t.idOf? m = if m = l then some r.size else r.idOf? m := by
  by_cases hm : m = l
  · subst hm
    rw [idOf?] at hl
    simp [idOf?, h, List.findIdx?_append, hl, size]
  · simp [idOf?, h, List.findIdx?_append, hm, Ne.symm hm]

/-- What is found is what `get` answers, without a new record. -/
theorem get_of_lookup (h : r.lookup w path = some i) : r.get w path = .ok (r, i) := by
  obtain ⟨l, hl, hi⟩ := lookup_eq_some_iff.mp h
  rw [get, hl]
  exact congrArg Except.ok (enter_of_idOf? (idOf?_eq_some_iff.mpr hi))

theorem get_eq (r : Registry) (w : Workspace) (path : String) :
    r.get w path = match w.canonical path with
      | .ok l => .ok (r.enter l)
      | .error fault => .error (.read path fault) := rfl

/-! ## What stays -/

/-- Records that have not been read have no dependencies either. -/
def Blank (r : Registry) : Prop := ∀ a ∈ r.sources, a.contents = none → a.IsUnset

/-- A later registry has the same records under the same numbers, but for those that have been set
in between, and perhaps more of them. -/
structure Kept (r t : Registry) : Prop where
  size_le : r.size ≤ t.size
  record : ∀ i a, r.source? i = some a → ∃ b, t.source? i = some b ∧ b.location = a.location ∧
    (b = a ∨ a.IsUnset ∧ b.contents ≠ none)

theorem Kept.refl (r : Registry) : Kept r r :=
  ⟨Nat.le_refl _, fun _ a ha => ⟨a, ha, rfl, Or.inl rfl⟩⟩

theorem Kept.trans (h : Kept r s) (h' : Kept s t) : Kept r t := by
  refine ⟨Nat.le_trans h.size_le h'.size_le, fun i a ha => ?_⟩
  obtain ⟨b, hb, hab, hset⟩ := h.record i a ha
  obtain ⟨c, hc, hbc, hset'⟩ := h'.record i b hb
  refine ⟨c, hc, hbc.trans hab, ?_⟩
  rcases hset' with rfl | ⟨hunset, hnew⟩
  · exact hset
  · rcases hset with rfl | ⟨-, hold⟩
    · exact Or.inr ⟨hunset, hnew⟩
    · exact absurd hunset.1 hold

theorem Kept.of_extended (h : r.sources <+: t.sources) : Kept r t :=
  ⟨h.length_le, fun _ a ha => ⟨a, getElem?_mono h ha, rfl, Or.inl rfl⟩⟩

theorem prefix_enter (r : Registry) (l : Location) : r.sources <+: (r.enter l).1.sources := by
  cases h : r.idOf? l with
  | some id => rw [enter_of_idOf? h]
  | none => exact ⟨_, (enter_of_idOf?_eq_none h).1.symm⟩

theorem blank_enter (hr : r.Blank) (l : Location) : (r.enter l).1.Blank := by
  cases h : r.idOf? l with
  | some id => rwa [enter_of_idOf? h]
  | none =>
    intro a ha hnone
    rw [(enter_of_idOf?_eq_none h).1] at ha
    rcases List.mem_append.mp ha with ha | ha
    · exact hr a ha hnone
    · rw [List.mem_singleton.mp ha]
      exact ⟨rfl, rfl⟩

theorem kept_complete (hr : r.Blank) (id : SourceId) (contents : List Char)
    (ids : List SourceId) : Kept r (r.complete id contents ids).1 := by
  refine ⟨Nat.le_of_eq (List.length_modify ..).symm, fun i a ha => ?_⟩
  rw [source?_complete, ha]
  by_cases hi : i = id
  · rw [if_pos hi]
    refine ⟨_, rfl, record_location a contents ids, ?_⟩
    cases hc : a.contents with
    | none =>
      right
      have hread := isRead_record a contents ids
      refine ⟨hr a (List.mem_of_getElem? ha) hc, fun hnone => ?_⟩
      rw [Source.isRead, hnone] at hread
      cases hread
    | some text =>
      have hread : a.isRead = true := by rw [Source.isRead, hc]; rfl
      exact Or.inl (if_pos hread)
  · rw [if_neg hi]
    exact ⟨a, rfl, rfl, Or.inl rfl⟩

theorem blank_complete (hr : r.Blank) (id : SourceId) (contents : List Char)
    (ids : List SourceId) : (r.complete id contents ids).1.Blank := by
  intro b hb hnone
  obtain ⟨i, hi⟩ := List.mem_iff_getElem?.mp hb
  have hlt : i < r.size := by
    have := (List.getElem?_eq_some_iff.mp hi).1
    rwa [complete, List.length_modify] at this
  obtain ⟨c, hc, -, hsame⟩ := (kept_complete hr id contents ids).record i _
    (List.getElem?_eq_getElem hlt)
  obtain rfl : c = b := Option.some.inj (hc.symm.trans hi)
  rcases hsame with rfl | ⟨-, hset⟩
  · exact hr _ (List.getElem_mem hlt) hnone
  · exact absurd hnone hset

theorem call_kept (hr : r.Blank) (c : Call) : Kept r (r.call c) ∧ (r.call c).Blank := by
  cases c with
  | get w path =>
    simp only [call, get_eq]
    cases w.canonical path with
    | error fault => exact ⟨.refl r, hr⟩
    | ok l => exact ⟨.of_extended (prefix_enter r l), blank_enter hr l⟩
  | lookup w path => exact ⟨.refl r, hr⟩
  | complete id contents ids =>
    exact ⟨kept_complete hr id contents ids, blank_complete hr id contents ids⟩

theorem after_kept (hr : r.Blank) (calls : List Call) :
    Kept r (r.after calls) ∧ (r.after calls).Blank := by
  induction calls generalizing r with
  | nil => exact ⟨.refl r, hr⟩
  | cons c calls ih =>
    obtain ⟨hk, hb⟩ := call_kept hr c
    obtain ⟨hk', hb'⟩ := ih hb
    exact ⟨hk.trans hk', hb'⟩

theorem blank_empty : empty.Blank := fun _ ha => absurd ha List.not_mem_nil

/-! ## An index beside the records -/

/-- Records, and beside them the number of each location. -/
structure Indexed where
  sources : List Source := []
  index : List (Location × SourceId) := []
deriving DecidableEq, Repr

namespace Indexed

/-- Only a record that is made gets an entry in the index. -/
def enter (x : Indexed) (l : Location) : Indexed × SourceId :=
  match x.index.lookup l with
  | some id => (x, id)
  | none =>
    (⟨x.sources ++ [{ location := l }], (l, x.sources.length) :: x.index⟩, x.sources.length)

def call (x : Indexed) : Call → Indexed
  | .get w path =>
    match w.canonical path with
    | .ok l => (x.enter l).1
    | .error _ => x
  | .lookup _ _ => x
  | .complete id contents ids => { x with sources := x.sources.modify id (record · contents ids) }

def answer (x : Indexed) : Call → Answer
  | .get w path =>
    match w.canonical path with
    | .ok l => .number (x.enter l).2
    | .error fault => .failure (.read path fault)
  | .lookup w path =>
    match w.canonical path with
    | .ok l => .found (x.index.lookup l)
    | .error _ => .found none
  | .complete id _ _ => .first (x.sources[id]?.any (!·.isRead))

def after (x : Indexed) (calls : List Call) : Indexed := calls.foldl call x

/-- The same records, and in the index what searching the records finds. -/
structure InStep (x : Indexed) (r : Registry) : Prop where
  sources : x.sources = r.sources
  index : ∀ l, x.index.lookup l = r.idOf? l

variable {x : Indexed}

theorem InStep.enter (h : InStep x r) (l : Location) :
    InStep (x.enter l).1 (r.enter l).1 ∧ (x.enter l).2 = (r.enter l).2 := by
  rw [Indexed.enter, h.index l]
  cases hl : r.idOf? l with
  | some id =>
    rw [enter_of_idOf? hl]
    exact ⟨h, rfl⟩
  | none =>
    obtain ⟨hsources, hid⟩ := enter_of_idOf?_eq_none hl
    refine ⟨⟨by rw [hsources, h.sources], fun m => ?_⟩, by rw [hid, h.sources, size]⟩
    rw [idOf?_of_append hsources hl, List.lookup_cons, h.index m, h.sources]
    by_cases hm : m = l
    · simp [hm, size]
    · rw [beq_eq_false_iff_ne.mpr hm, if_neg hm]

theorem InStep.complete (h : InStep x r) (id : SourceId) (contents : List Char)
    (ids : List SourceId) : InStep (x.call (.complete id contents ids))
      (r.complete id contents ids).1 := by
  refine ⟨by rw [Indexed.call, Registry.complete, h.sources], fun l => ?_⟩
  rw [Indexed.call, h.index l]
  ext i
  rw [idOf?_eq_some_iff, idOf?_eq_some_iff, location?_complete]

theorem InStep.call (h : InStep x r) (c : Call) :
    InStep (x.call c) (r.call c) ∧ x.answer c = r.answer c := by
  cases c with
  | get w path =>
    simp only [Indexed.call, Registry.call, Indexed.answer, Registry.answer, get_eq]
    cases w.canonical path with
    | error fault => exact ⟨h, rfl⟩
    | ok l => exact ⟨(h.enter l).1, congrArg Answer.number (h.enter l).2⟩
  | lookup w path =>
    refine ⟨h, ?_⟩
    simp only [Indexed.answer, Registry.answer, Registry.lookup]
    cases w.canonical path with
    | error fault => rfl
    | ok l => exact congrArg Answer.found (h.index l)
  | complete id contents ids =>
    refine ⟨h.complete id contents ids, ?_⟩
    rw [Indexed.answer, h.sources]
    rfl

theorem InStep.after (h : InStep x r) (calls : List Call) :
    InStep (x.after calls) (r.after calls) := by
  induction calls generalizing x r with
  | nil => exact h
  | cons c calls ih => exact ih (h.call c).1

theorem inStep_empty : InStep {} empty := ⟨rfl, fun _ => rfl⟩

end Indexed

/-- After any calls on a new registry an index kept beside it has exactly the numbers of its
records by location, and answers every further call alike. No two records have one location. Later
calls leave locations and numbers as they are, and set a record at most once. A `get` that fails and
every `lookup` change nothing. A path is found if it leads to the location of a record now, and then
`get` answers the same number and makes no record. -/
theorem calls_consistent (before later : List Call) :
    (∀ l i, (Indexed.after {} before).index.lookup l = some i ↔
      i < (empty.after before).size ∧ (empty.after before).location? i = some l) ∧
    (∀ c, (Indexed.after {} before).answer c = (empty.after before).answer c) ∧
    (∀ i j l, (empty.after before).location? i = some l →
      (empty.after before).location? j = some l → i = j) ∧
    Kept (empty.after before) ((empty.after before).after later) ∧
    (∀ w path e, (empty.after before).get w path = .error e →
      (empty.after before).call (.get w path) = empty.after before) ∧
    (∀ w path, (empty.after before).call (.lookup w path) = empty.after before) ∧
    (∀ w path i, (empty.after before).lookup w path = some i ↔
      ∃ l, w.canonical path = .ok l ∧ (empty.after before).location? i = some l) ∧
    ∀ w path i, (empty.after before).lookup w path = some i →
      (empty.after before).get w path = .ok (empty.after before, i) := by
  have hstep := Indexed.inStep_empty.after before
  obtain ⟨-, hblank⟩ := after_kept blank_empty before
  refine ⟨fun l i => ?_, fun c => (hstep.call c).2, fun i j l => eq_of_location?,
    (after_kept hblank later).1, fun w path e he => ?_, fun w path => rfl,
    fun w path i => lookup_eq_some_iff, fun w path i => get_of_lookup⟩
  · rw [hstep.index, idOf?_eq_some_iff]
    exact ⟨fun h => ⟨lt_size_of_location? h, h⟩, fun h => h.2⟩
  · rw [call, he]

end Registry

end SourceBundle
