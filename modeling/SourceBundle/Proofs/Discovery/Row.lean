import SourceBundle.Proofs.Discovery.Sequence

/-! # The row of files

The order in which a run reads files can be said without the run: those that the entries lead to,
then what one file after the other names, each place where it is first named. Whether a run succeeds
or not, it gives its numbers out in that order, and before each file that it reads all are legible.
-/
namespace SourceBundle

namespace Workspace

variable {w : Workspace} {charset : Charset} {entries : List String} {starts : List Location}
  {l m : Location} {n k : Nat}

/-- Where those references of a file lead that name files, in the order of declaration. -/
def named (w : Workspace) (charset : Charset) (l : Location) : List Location :=
  ((w.parsed? charset l).elim [] Directive.Parsed.requires).filterMap fun reference =>
    if w.isFile (Directive.resolve l.parent.text reference) then
      (w.target l reference).toOption
    else none

/-- The files known after the first `n` of them have been read. -/
def row (w : Workspace) (charset : Charset) (starts : List Location) : Nat → List Location
  | 0 => starts.eraseDups
  | n + 1 =>
    let known := row w charset starts n
    known ++ ((known[n]?.elim [] (w.named charset)).filter (!known.contains ·)).eraseDups

/-- The file with the number `n`, counted from zero in breadth-first order. -/
def nth? (w : Workspace) (charset : Charset) (starts : List Location) (n : Nat) :
    Option Location :=
  (w.row charset starts n)[n]?

/-- The files that the entries lead to through references that name files, whatever else is wrong
with the files on the way. -/
def Finds (w : Workspace) (charset : Charset) (entries : List String) (l : Location) : Prop :=
  ∃ entry ∈ entries, ∃ start, w.canonical entry = .ok start ∧
    Relation.ReflTransGen (fun l m => m ∈ w.named charset l) start l

theorem row_mono (h : n ≤ k) : w.row charset starts n <+: w.row charset starts k := by
  induction k, h using Nat.le_induction with
  | base => exact List.prefix_rfl
  | succ k _ ih => exact ih.trans (List.prefix_append _ _)

theorem length_of_nth? (h : w.nth? charset starts n = none) :
    (w.row charset starts n).length ≤ n := List.getElem?_eq_none_iff.mp h

/-- From its end on the row stays the same. -/
theorem row_of_nth?_eq_none (h : w.nth? charset starts n = none) (hk : n ≤ k) :
    w.row charset starts k = w.row charset starts n := by
  induction k, hk using Nat.le_induction with
  | base => rfl
  | succ k hk ih =>
    have hend : (w.row charset starts k)[k]? = none := by
      rw [ih]
      exact List.getElem?_eq_none ((length_of_nth? h).trans hk)
    simp only [row, hend, Option.elim_none, List.filter_nil, List.eraseDups_nil, List.append_nil]
    exact ih

theorem nth?_eq_none_of_le (h : w.nth? charset starts n = none) (hk : n ≤ k) :
    w.nth? charset starts k = none := by
  rw [nth?, row_of_nth?_eq_none h hk]
  exact List.getElem?_eq_none ((length_of_nth? h).trans hk)

/-- A file has the same number however far the row has grown. -/
theorem nth?_of_row (h : (w.row charset starts n)[k]? = some l) :
    w.nth? charset starts k = some l := by
  -- The row either has yet to reach `k`, or ends before it or has passed it.
  rcases Nat.le_total n k with hnk | hkn
  · exact getElem?_mono (row_mono hnk) h
  · cases hk : w.nth? charset starts k with
    | none =>
      rw [row_of_nth?_eq_none hk hkn] at h
      exact hk.symm.trans h
    | some m => exact (getElem?_mono (row_mono hkn) hk).symm.trans h

theorem mem_row_succ_iff : l ∈ w.row charset starts (n + 1) ↔
    l ∈ w.row charset starts n ∨
      ∃ m, w.nth? charset starts n = some m ∧ l ∈ w.named charset m := by
  have hn : (w.row charset starts n)[n]? = w.nth? charset starts n := rfl
  rw [row, List.mem_append, List.mem_eraseDups, List.mem_filter, hn]
  cases w.nth? charset starts n with
  | none => simp
  | some m =>
    simp only [Option.elim_some, Option.some.injEq, exists_eq_left', Bool.not_eq_true',
      List.contains_eq_mem, decide_eq_false_iff_not]
    tauto

theorem finds_of_mem_row (hs : entries.map w.canonical = starts.map .ok)
    (hl : l ∈ w.row charset starts n) : w.Finds charset entries l := by
  induction n generalizing l with
  | zero =>
    obtain ⟨entry, hentry, hc⟩ := (mem_iff_canonical hs).mp (List.mem_eraseDups.mp hl)
    exact ⟨entry, hentry, l, hc, .refl⟩
  | succ n ih =>
    rcases mem_row_succ_iff.mp hl with hl | ⟨m, hm, hnamed⟩
    · exact ih hl
    · obtain ⟨entry, hentry, start, hc, hreach⟩ := ih (List.mem_of_getElem? hm)
      exact ⟨entry, hentry, start, hc, hreach.tail hnamed⟩

/-- What is found from the entries is what has a number. -/
theorem finds_iff (hs : entries.map w.canonical = starts.map .ok) :
    w.Finds charset entries l ↔ ∃ n, w.nth? charset starts n = some l := by
  constructor
  · rintro ⟨entry, hentry, start, hc, hl⟩
    induction hl with
    | refl =>
      have hstart : start ∈ w.row charset starts 0 :=
        List.mem_eraseDups.mpr ((mem_iff_canonical hs).mpr ⟨entry, hentry, hc⟩)
      obtain ⟨n, hn⟩ := List.mem_iff_getElem?.mp hstart
      exact ⟨n, nth?_of_row hn⟩
    | tail _ hm ih =>
      obtain ⟨n, hn⟩ := ih
      obtain ⟨k, hk⟩ := List.mem_iff_getElem?.mp (mem_row_succ_iff.mpr (Or.inr ⟨_, hn, hm⟩))
      exact ⟨k, nth?_of_row hk⟩
  · rintro ⟨n, hn⟩
    exact finds_of_mem_row hs (List.mem_of_getElem? hn)

/-- What is named is a target, and some path names it as a file. -/
theorem exists_of_mem_named (h : m ∈ w.named charset l) :
    w.Requires charset l m ∧ ∃ path, w.isFile path = true ∧ w.canonical path = .ok m := by
  obtain ⟨reference, hr, hif⟩ := List.mem_filterMap.mp h
  split at hif
  · rename_i hfile
    refine ⟨List.mem_filterMap.mpr ⟨reference, hr, hif⟩, _, hfile, ?_⟩
    change w.target l reference = .ok m
    cases hc : w.target l reference with
    | error fault =>
      rw [hc] at hif
      cases hif
    | ok k =>
      rw [hc] at hif
      cases hif
      rfl
  · cases hif

theorem named_eq_targets (h : w.Legible charset l) : w.named charset l = w.targets charset l := by
  obtain ⟨octets, parsed, hread, hparse, hfiles⟩ := h
  have hp : w.parsed? charset l = some parsed := by
    rw [parsed?, hread]
    exact congrArg Except.toOption hparse
  rw [named, targets, hp, Option.elim_some]
  apply List.filterMap_congr
  intro reference hr
  rw [if_pos (hfiles reference hr)]

end Workspace

namespace Discovery

variable {w : Workspace} {charset : Charset} {starts : List Location} {n : Nat} {r t : Registry}
  {id : SourceId} {source : Source} {rest queued : List SourceId} {log : Array Log.Line}
  {a b : State}

/-- What holds of every run from `starts` after `n` files have been read. -/
structure Along (w : Workspace) (charset : Charset) (starts : List Location) (n : Nat)
    (s : State) : Prop extends InOrder w charset starts n s where
  row : s.registry.locations = w.row charset starts n
  legible : ∀ m < n, ∀ l, w.nth? charset starts m = some l → w.Legible charset l

theorem along_begin (w : Workspace) (charset : Charset) (starts : List Location) :
    Along w charset starts 0
      ⟨(Registry.empty.enterEach starts).1, (Registry.empty.enterEach starts).2, #[]⟩ := by
  refine ⟨inOrder_begin w charset starts, ?_, fun m hm => absurd hm (Nat.not_lt_zero m)⟩
  rw [Registry.locations_enterEach, Registry.fresh_empty]
  rfl

/-- The file in front that has not been read is the next one of the row. -/
theorem Along.front (h : Along w charset starts n ⟨r, id :: rest, log⟩)
    (hs : r.source? id = some source) (hu : source.isRead = false) :
    n = id ∧ w.nth? charset starts n = some source.location := by
  obtain ⟨rfl, -, -⟩ := h.toInOrder.front ((Registry.isRead_of_source? hs).trans hu)
  refine ⟨rfl, ?_⟩
  have hrow : r.locations = w.row charset starts n := h.row
  rw [Workspace.nth?, ← hrow, ← Registry.location?, Registry.location?_eq, hs, Option.map_some]

theorem Along.read (h : Along w charset starts n ⟨r, id :: rest, log⟩)
    (hs : r.source? id = some source) (hu : source.isRead = false)
    (hv : (visit w charset r id source).value = .ok (t, queued)) :
    Along w charset starts (n + 1)
      ⟨t, rest ++ queued, log ++ (visit w charset r id source).log⟩ := by
  obtain ⟨-, hnth⟩ := h.front hs hu
  have hlegible : w.Legible charset source.location := visit_isOk_iff.mp ⟨_, hv⟩
  refine ⟨(h.toInOrder.read hs hu hv).2, ?_, ?_⟩
  · have hrow : r.locations = w.row charset starts n := h.row
    rw [Workspace.nth?] at hnth
    simp only [Workspace.row, hnth, Option.elim_some, Workspace.named_eq_targets hlegible]
    rw [(visited_of_ok hs hu hv).locations, Registry.fresh, hrow]
    simp only [List.contains_eq_mem, decide_not]
  · intro m hm l hl
    rcases Nat.lt_succ_iff_lt_or_eq.mp hm with hm | rfl
    · exact h.legible m hm l hl
    · exact Option.some.inj (hnth.symm.trans hl) ▸ hlegible

theorem Advance.along (ha : Advance w charset a b) (h : Along w charset starts n a) :
    ∃ m, Along w charset starts m b := by
  cases ha with
  | skip r id rest log hr => exact ⟨n, h.toInOrder.skip hr, h.row, h.legible⟩
  | read r id rest log source t queued hs hu hv => exact ⟨n + 1, h.read hs hu hv⟩

theorem runs_along (hr : Relation.ReflTransGen (Advance w charset) a b)
    (h : Along w charset starts n a) : ∃ m, Along w charset starts m b := by
  induction hr with
  | refl => exact ⟨n, h⟩
  | tail _ ha ih =>
    obtain ⟨m, hm⟩ := ih
    exact ha.along hm

/-- At no time does a run give a file another number than the row does. -/
theorem Along.nth? (h : Along w charset starts n a) {i : SourceId} {l : Location}
    (hi : a.registry.location? i = some l) : w.nth? charset starts i = some l := by
  rw [Registry.location?, h.row] at hi
  exact Workspace.nth?_of_row hi

end Discovery

end SourceBundle
