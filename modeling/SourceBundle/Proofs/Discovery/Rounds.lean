import Mathlib.Algebra.Order.BigOperators.Group.Finset
import SourceBundle.Proofs.Discovery.Queue

/-! # How many rounds a run has

A queue may grow while it is consumed, so its length does not show that a run ends. What is still
to be done does: the numbers in the queue, and for each file not read yet the targets that it may
queue. Dropping a number takes one from it, and so does reading a file, which at most moves its
targets into the queue.
-/
namespace SourceBundle

/-- The places that hold something, without the root. -/
def FileSystem.locations (fs : FileSystem) : Finset Location := (fs.entries.map Prod.fst).toFinset

theorem FileSystem.mem_locations_of_read {fs : FileSystem} {l : Location}
    {octets : Text.Utf8.Octets} (h : fs.read l = .ok octets) : l ∈ fs.locations := by
  obtain ⟨e, he, rfl⟩ := Discovery.mem_of_read h
  exact List.mem_toFinset.mpr (List.mem_map_of_mem he)

namespace Discovery

variable {w : Workspace} {charset : Charset} {r t : Registry} {id : SourceId} {source : Source}
  {queued : List SourceId} {a b c : State} {n : Nat}

/-! ## One round -/

theorem readAt_iff {l : Location} :
    readAt r l = true ↔ ∃ i, r.location? i = some l ∧ r.isRead i = true := by
  simp only [readAt, List.any_eq_true, Bool.and_eq_true, decide_eq_true_eq]
  constructor
  · rintro ⟨s, hs, rfl, hread⟩
    obtain ⟨i, hi⟩ := List.mem_iff_getElem?.mp hs
    have hi : r.source? i = some s := hi
    exact ⟨i, by rw [Registry.location?_eq, hi]; rfl, (Registry.isRead_of_source? hi).trans hread⟩
  · rintro ⟨i, hl, hread⟩
    rw [Registry.location?_eq] at hl
    obtain ⟨s, hs, rfl⟩ := Option.map_eq_some_iff.mp hl
    exact ⟨s, List.mem_of_getElem? hs, rfl, (Registry.isRead_of_source? hs).symm.trans hread⟩

/-- Reading a file adds its place to those that have been read, and no other. -/
theorem readAt_of_visit (hs : r.source? id = some source) (hu : source.isRead = false)
    (hv : (visit w charset r id source).value = .ok (t, queued)) (l : Location) :
    readAt t l = true ↔ l = source.location ∨ readAt r l = true := by
  have hprefix : r.locations <+: t.locations :=
    ⟨_, (visited_of_ok hs hu hv).locations.symm⟩
  have hid : t.location? id = some source.location := by
    refine Registry.location?_of_prefix hprefix ?_
    rw [Registry.location?_eq, hs]
    rfl
  -- A number that has a place in the smaller registry has the same place in the larger one.
  have hold : ∀ i, r.isRead i = true → (t.location? i = some l ↔ r.location? i = some l) := by
    intro i hread
    obtain ⟨s, hs⟩ : ∃ s, r.source? i = some s := by
      cases h : r.source? i with
      | none => simp [Registry.isRead, h] at hread
      | some s => exact ⟨s, rfl⟩
    have hi : r.location? i = some s.location := by
      rw [Registry.location?_eq, hs]
      rfl
    rw [hi, Registry.location?_of_prefix hprefix hi]
  simp only [readAt_iff, isRead_of_visit hs hv, Bool.or_eq_true, beq_iff_eq]
  constructor
  · rintro ⟨i, hi, rfl | hread⟩
    · exact Or.inl (Option.some.inj (hi.symm.trans hid))
    · exact Or.inr ⟨i, (hold i hread).mp hi, hread⟩
  · rintro (rfl | ⟨i, hi, hread⟩)
    · exact ⟨id, hid, Or.inl rfl⟩
    · exact ⟨i, (hold i hread).mpr hi, Or.inr hread⟩

/-- A file that is read queues no more than its targets. -/
theorem length_queued_le (hv : (visit w charset r id source).value = .ok (t, queued)) :
    queued.length ≤ (w.targets charset source.location).length := by
  obtain ⟨octets, parsed, targets, hread, hparse, ht, he⟩ := visit_ok hv
  obtain ⟨-, rfl⟩ := Prod.mk.inj he
  rw [Workspace.targets_eq hread hparse ht]
  have hlen := congrArg List.length (Registry.map_location?_enterEach r targets)
  rw [List.length_map, List.length_map] at hlen
  exact (List.length_filter_le _ _).trans hlen.le

/-- What a round does to the queue and to the files that have been read. -/
inductive Progress (w : Workspace) (charset : Charset) (a b : State) : Prop
  /-- The queue becomes shorter and gets nothing new. -/
  | dropped (id : SourceId) (hqueue : a.queue = id :: b.queue) (hregistry : b.registry = a.registry)
  /-- A file of the file system that had not been read has been read. -/
  | read (l : Location) (id : SourceId) (rest queued : List SourceId)
      (hfile : l ∈ w.files.locations) (hunread : readAt a.registry l = false)
      (hread : ∀ m, readAt b.registry m = true ↔ m = l ∨ readAt a.registry m = true)
      (hbefore : a.queue = id :: rest) (hafter : b.queue = rest ++ queued)
      (hqueued : queued.length ≤ (w.targets charset l).length)

theorem Advance.progress (h : Advance w charset a b) : Progress w charset a b := by
  cases h with
  | skip r id rest log h => exact .dropped id rfl rfl
  | read r id rest log source t queued hs hu hv =>
    obtain ⟨octets, -, -, hfile, -⟩ := visit_ok hv
    exact .read source.location id rest queued (FileSystem.mem_locations_of_read hfile)
      (readAt_eq_false hs hu) (readAt_of_visit hs hu hv) rfl rfl (length_queued_le hv)

/-! ## What is still to be done -/

/-- The places that have not been read. -/
def unreadPlaces (fs : FileSystem) (r : Registry) : Finset Location :=
  fs.locations.filter fun l => readAt r l = false

/-- The numbers in the queue, and the targets of all files that have not been read. -/
def work (w : Workspace) (charset : Charset) (s : State) : Nat :=
  s.queue.length + ∑ l ∈ unreadPlaces w.files s.registry, (w.targets charset l).length

theorem Progress.work_lt (h : Progress w charset a b) : work w charset b < work w charset a := by
  cases h with
  | dropped id hqueue hregistry =>
    simp only [work, hqueue, hregistry, List.length_cons]
    omega
  | read l id rest queued hfile hunread hread hbefore hafter hqueued =>
    have hmem : l ∈ unreadPlaces w.files a.registry := Finset.mem_filter.mpr ⟨hfile, hunread⟩
    have hplaces : unreadPlaces w.files b.registry = (unreadPlaces w.files a.registry).erase l := by
      ext m
      rw [unreadPlaces, unreadPlaces, Finset.mem_erase, Finset.mem_filter, Finset.mem_filter,
        ← Bool.not_eq_true, ← Bool.not_eq_true, hread]
      tauto
    have hsum := Finset.add_sum_erase (unreadPlaces w.files a.registry)
      (fun m => (w.targets charset m).length) hmem
    simp only [work, hbefore, hafter, hplaces, List.length_cons, List.length_append]
    omega

theorem Advance.work_lt (h : Advance w charset a b) : work w charset b < work w charset a :=
  h.progress.work_lt

theorem unreadPlaces_enterEach_empty (fs : FileSystem) (starts : List Location) :
    unreadPlaces fs (Registry.empty.enterEach starts).1 = fs.locations := by
  refine Finset.filter_true_of_mem fun l _ => ?_
  rw [← Bool.not_eq_true, readAt_iff]
  rintro ⟨i, -, hread⟩
  rw [Registry.isRead_enterEach] at hread
  cases hread

/-! ## Rows of rounds -/

/-- A row of so many rounds. -/
inductive Rounds (w : Workspace) (charset : Charset) : Nat → State → State → Prop
  | none (a : State) : Rounds w charset 0 a a
  | next {n : Nat} {a b c : State} (h : Advance w charset a b) (hc : Rounds w charset n b c) :
    Rounds w charset (n + 1) a c

theorem Rounds.work_le (h : Rounds w charset n a b) :
    n + work w charset b ≤ work w charset a := by
  induction h with
  | none a => exact (Nat.zero_add _).le
  | next h _ ih =>
    have := h.work_lt
    omega

/-- Nothing is left to do, or the file in front cannot be read. -/
inductive Halted (w : Workspace) (charset : Charset) : State → Except Error Registry → Prop
  | done (r : Registry) (log : Array Log.Line) : Halted w charset ⟨r, [], log⟩ (.ok r)
  | fault (r : Registry) (id : SourceId) (rest : List SourceId) (log : Array Log.Line)
      (source : Source) (e : Error) (hs : r.source? id = some source)
      (hu : source.isRead = false) (he : (visit w charset r id source).value = .error e) :
    Halted w charset ⟨r, id :: rest, log⟩ (.error e)

theorem Halted.run_eq {result : Except Error Registry} (h : Halted w charset a result) :
    (run w charset a).value = result := by
  cases h with
  | done r log => rw [run_nil]
  | fault r id rest log source e hs hu he => exact run_error hs hu he

theorem Halted.not_advance {result : Except Error Registry} (h : Halted w charset a result) :
    ¬Advance w charset a b := by
  intro hab
  cases h with
  | done r log => cases hab
  | fault r id rest log source e hs hu he =>
    cases hab with
    | skip _ _ _ _ hread =>
      rw [hread source hs] at hu
      cases hu
    | read _ _ _ _ source' t queued hs' hu' hv =>
      cases hs.symm.trans hs'
      rw [he] at hv
      cases hv

theorem exists_rounds (w : Workspace) (charset : Charset) (a : State) :
    ∃ n b, Rounds w charset n a b ∧ Halted w charset b (run w charset a).value := by
  induction a using run_induction with
  | done r log =>
    refine ⟨0, _, .none _, ?_⟩
    rw [run_nil]
    exact .done r log
  | stuck r id rest log source e hs hu he =>
    refine ⟨0, _, .none _, ?_⟩
    rw [run_error hs hu he]
    exact .fault r id rest log source e hs hu he
  | advance a b ha ih =>
    obtain ⟨n, c, hrounds, hhalted⟩ := ih
    refine ⟨n + 1, c, .next ha hrounds, ?_⟩
    rw [ha.run_eq]
    exact hhalted

/-- Every round makes progress, so there is no endless row of them. A discovery whose entries lead
somewhere comes to its end after at most as many rounds as there are entries and, in all files,
targets. -/
theorem discovery_ends (w : Workspace) (charset : Charset) :
    (∀ a b, Advance w charset a b → Progress w charset a b) ∧
      WellFounded (fun b a => Advance w charset a b) ∧
      ∀ entries r ids, enterAll w .empty entries = .ok (r, ids) →
        (∀ n b, Rounds w charset n ⟨r, ids, #[]⟩ b →
          n ≤ entries.length + ∑ l ∈ w.files.locations, (w.targets charset l).length) ∧
        ∃ n b result, Rounds w charset n ⟨r, ids, #[]⟩ b ∧ Halted w charset b result ∧
          (∀ c, ¬Advance w charset b c) ∧
          (discover w charset entries).value = result.map fun t => ⟨t, ids.eraseDups⟩ := by
  refine ⟨fun a b h => h.progress, ?_, fun entries r ids hentries => ⟨fun n b hrounds => ?_, ?_⟩⟩
  · exact Subrelation.wf (fun h => h.work_lt) (measure (work w charset)).wf
  · obtain ⟨starts, hs, hp⟩ := enterAll_eq_enterEach hentries
    obtain ⟨rfl, rfl⟩ := Prod.mk.inj hp
    have hlen := congrArg List.length (Registry.map_location?_enterEach .empty starts)
    have hlen' := congrArg List.length hs
    rw [List.length_map, List.length_map] at hlen hlen'
    have hwork := hrounds.work_le
    simp only [work, unreadPlaces_enterEach_empty] at hwork
    omega
  · obtain ⟨n, b, hrounds, hhalted⟩ := exists_rounds w charset ⟨r, ids, #[]⟩
    refine ⟨n, b, _, hrounds, hhalted, fun c => hhalted.not_advance, ?_⟩
    simp only [discover, hentries, Logged.map]

/-! ## A run in a circle -/

/-- Two files that name each other, the first one also by a link to itself. -/
def coil : Workspace where
  current := []
  files := ⟨[
    (["a"], .file (Text.Utf8.encode "/*requires b*//*requires l*//*requires b*/x".toList)),
    (["b"], .file (Text.Utf8.encode "/*requires a*/y".toList)),
    (["l"], .link "a")]⟩

theorem coil_ends : ∃ r n b result,
    enterAll coil .empty ["a", "l", "a"] = .ok (r, [0, 0, 0]) ∧
      Rounds coil .utf8 n ⟨r, [0, 0, 0], #[]⟩ b ∧ Halted coil .utf8 b result ∧ n ≤ 7 := by
  have hentries : enterAll coil .empty ["a", "l", "a"] =
      .ok (⟨[{ location := ["a"] }], by decide⟩, [0, 0, 0]) := by
    cbv
  obtain ⟨hbound, n, b, result, hrounds, hhalted, -⟩ :=
    (discovery_ends coil .utf8).2.2 _ _ _ hentries
  have hsum : ∑ l ∈ coil.files.locations, (coil.targets .utf8 l).length = 4 := by cbv
  have hn := hbound n b hrounds
  rw [hsum] at hn
  exact ⟨_, n, b, result, hentries, hrounds, hhalted, hn⟩

end Discovery

end SourceBundle
