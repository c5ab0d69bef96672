import SourceBundle.Proofs.Discovery.Queue

/-! # The order of reading

Files are read in the order of their numbers, each once. The queue may hold a number many times;
without those of files already read, and each once, it is the row of the numbers from the next
one on. So numbers are given out in the order in which files are first named, by the entries and
then by one file after the other.
-/
namespace SourceBundle

/-- The lines recorded while a file is read. -/
def Workspace.account (w : Workspace) (charset : Charset) (l : Location) : List Log.Line :=
  let references := (w.parsed? charset l).elim [] Directive.Parsed.requires
  Log.progress .discovery ("Processing file '" ++ l.text ++ "'") ::
    references.map (fun reference =>
      Log.progress .discovery ("... has dependency on " ++ reference)) ++
    if references.isEmpty then [Log.progress .discovery "... no dependencies found."] else []

/-- The numbers given to locations not met before are the next ones. -/
theorem Registry.eraseDups_enterEach (r : Registry) (ls : List Location) :
    ((r.enterEach ls).2.filter (r.size ≤ ·)).eraseDups =
      List.range' r.size (r.fresh ls).length := by
  induction ls generalizing r with
  | nil => simp [enterEach, fresh]
  | cons l ls ih =>
    simp only [enterEach]
    by_cases h : l ∈ r.locations
    · obtain ⟨id, hid, he⟩ := enter_of_mem h
      have hlt : ¬r.size ≤ id := Nat.not_le.mpr (lt_size_of_location? hid)
      rw [he, fresh_cons_of_mem h, List.filter_cons_of_neg (by simpa using hlt), ih]
    · obtain ⟨hs, hid⟩ := enter_of_not_mem h
      have hl : (r.enter l).1.locations = r.locations ++ [l] := by
        rw [locations, hs, List.map_append, map_location_unread, locations]
      have hsize : (r.enter l).1.size = r.size + 1 := by
        rw [← length_locations, hl, List.length_append, length_locations, List.length_singleton]
      have hrest : ((r.enter l).1.enterEach ls).2.filter (fun i => !i == r.size && r.size ≤ i) =
          ((r.enter l).1.enterEach ls).2.filter ((r.enter l).1.size ≤ ·) := by
        apply List.filter_congr
        intro i _
        rw [hsize, Bool.eq_iff_iff]
        simp
        omega
      rw [hid, List.filter_cons_of_pos (by simp), List.eraseDups_cons, List.filter_filter, hrest, ih,
        hsize, fresh_cons_of_not_mem h hl, List.length_cons, List.range'_succ]

theorem Registry.eraseDups_enterEach_empty (ls : List Location) :
    (empty.enterEach ls).2.eraseDups = List.range ls.eraseDups.length := by
  have hall : (empty.enterEach ls).2.filter (empty.size ≤ ·) = (empty.enterEach ls).2 :=
    List.filter_eq_self.mpr fun i _ => by simp [size, empty]
  rw [← hall, eraseDups_enterEach, fresh_empty, List.range_eq_range']
  rfl

/-- The first numbers of a registry are those of the locations that it starts with. -/
theorem Registry.map_location?_range {r : Registry} {ls : List Location} (h : ls <+: r.locations) :
    (List.range ls.length).map r.location? = ls.map some := by
  refine List.ext_getElem (by simp) fun i hi hi' => ?_
  have hlt : i < ls.length := by simpa using hi'
  rw [List.getElem_map, List.getElem_range, List.getElem_map]
  obtain ⟨rest, hr⟩ := h
  rw [location?, ← hr, List.getElem?_append_left hlt, List.getElem?_eq_getElem hlt]

/-- What a registry holds and then what is new to it are the locations in the order in which they
were first named. -/
theorem Registry.append_fresh {r : Registry} {named : List Location}
    (h : r.locations = named.eraseDups) (ls : List Location) :
    r.locations ++ r.fresh ls = (named ++ ls).eraseDups := by
  rw [List.eraseDups_append, ← h, fresh, List.removeAll]
  congr 2
  apply List.filter_congr
  intro l _
  rw [List.elem_eq_contains, Bool.eq_iff_iff]
  simp only [decide_eq_true_eq, Bool.not_eq_true', List.contains_eq_mem, decide_eq_false_iff_not]
  rw [h, List.mem_eraseDups]

namespace Discovery

variable {w : Workspace} {charset : Charset} {r t : Registry} {source : Source} {id : SourceId}
  {starts : List Location} {n : Nat} {a b : State} {ids : List SourceId}

/-! ## What is recorded -/

theorem link_log {references : List String} {p : Registry × List SourceId}
    (h : (link w source r references).value = .ok p) :
    (link w source r references).log = references.map (fun reference =>
        Log.progress .discovery ("... has dependency on " ++ reference)) ∧
      p.2.length = references.length := by
  induction references generalizing r p with
  | nil =>
    cases h
    exact ⟨rfl, rfl⟩
  | cons reference references ih =>
    simp only [link] at h ⊢
    split at h
    · rename_i hf
      rw [if_pos hf]
      split at h
      · cases h
      · rename_i t id hget
        cases hl : (link w source t references).value with
        | error e => rw [hl] at h; cases h
        | ok q =>
          rw [hl] at h
          cases h
          obtain ⟨hlog, hlen⟩ := ih hl
          simp only [hlog, List.map_cons, List.length_cons, hlen, and_self]
    · cases h

theorem visit_log {p : Registry × List SourceId}
    (h : (visit w charset r id source).value = .ok p) :
    (visit w charset r id source).log = w.account charset source.location := by
  simp only [visit] at h ⊢
  split at h
  · cases h
  · rename_i octets hread
    split at h
    · cases h
    · rename_i parsed hparse
      split at h
      · cases h
      · rename_i t ids hlink
        obtain ⟨hlog, hlen⟩ := link_log hlink
        have hempty : ids.isEmpty = parsed.requires.isEmpty := by
          rw [Bool.eq_iff_iff, List.isEmpty_iff_length_eq_zero, List.isEmpty_iff_length_eq_zero, hlen]
        have hw : w.parsed? charset source.location = some parsed := by
          rw [Workspace.parsed?, hread]
          exact congrArg Except.toOption hparse
        simp only [hlog, hempty, Workspace.account, hw, Option.elim_some]
        rfl

/-! ## Rows of advances -/

/-- A row of advances, with the numbers of the files that it reads. -/
inductive Reads (w : Workspace) (charset : Charset) : State → List SourceId → State → Prop
  | none (a : State) : Reads w charset a [] a
  | skip {r : Registry} {id : SourceId} {rest : List SourceId} {log : Array Log.Line}
      {ids : List SourceId} {b : State}
      (h : ∀ source, r.source? id = some source → source.isRead = true)
      (hb : Reads w charset ⟨r, rest, log⟩ ids b) :
    Reads w charset ⟨r, id :: rest, log⟩ ids b
  | read {r : Registry} {id : SourceId} {rest : List SourceId} {log : Array Log.Line}
      {source : Source} {t : Registry} {queued ids : List SourceId} {b : State}
      (hs : r.source? id = some source) (hu : source.isRead = false)
      (hv : (visit w charset r id source).value = .ok (t, queued))
      (hb : Reads w charset ⟨t, rest ++ queued, log ++ (visit w charset r id source).log⟩ ids b) :
    Reads w charset ⟨r, id :: rest, log⟩ (id :: ids) b

theorem exists_reads (h : Relation.ReflTransGen (Advance w charset) a b) :
    ∃ ids, Reads w charset a ids b := by
  induction h using Relation.ReflTransGen.head_induction_on with
  | refl => exact ⟨[], .none b⟩
  | head ha _ ih =>
    obtain ⟨ids, hr⟩ := ih
    cases ha with
    | skip r id rest log h => exact ⟨ids, .skip h hr⟩
    | read r id rest log source t queued hs hu hv => exact ⟨id :: ids, .read hs hu hv hr⟩

/-- What holds of a run from `starts` after `n` files have been read. -/
structure InOrder (w : Workspace) (charset : Charset) (starts : List Location) (n : Nat)
    (s : State) : Prop where
  isRead : ∀ i : Nat, s.registry.isRead i = decide (i < n)
  bound : n ≤ s.registry.size
  waiting : waiting s.registry s.queue = List.range' n (s.registry.size - n)
  locations : s.registry.locations =
    (starts ++ (s.registry.locations.take n).flatMap (w.targets charset)).eraseDups
  log : s.log.toList = (s.registry.locations.take n).flatMap (w.account charset)

theorem inOrder_begin (w : Workspace) (charset : Charset) (starts : List Location) :
    InOrder w charset starts 0
      ⟨(Registry.empty.enterEach starts).1, (Registry.empty.enterEach starts).2, #[]⟩ := by
  have hread : ∀ i, (Registry.empty.enterEach starts).1.isRead i = false :=
    Registry.isRead_enterEach Registry.empty starts
  have hl : (Registry.empty.enterEach starts).1.locations = starts.eraseDups := by
    rw [Registry.locations_enterEach, Registry.fresh_empty]
    rfl
  refine ⟨fun i => by simp [hread], Nat.zero_le _, ?_, by simp [hl], by simp⟩
  rw [Discovery.waiting, List.filter_eq_self.mpr (fun i _ => by simp [hread]),
    Registry.eraseDups_enterEach_empty, ← hl, Registry.length_locations, List.range_eq_range']
  rfl

/-- A file that is read is the next one. -/
theorem InOrder.front {rest : List SourceId} {log : Array Log.Line}
    (h : InOrder w charset starts n ⟨r, id :: rest, log⟩) (hr : r.isRead id = false) :
    n = id ∧ n < r.size ∧
      (rest.filter fun i => !i == n && !r.isRead i).eraseDups =
        List.range' (n + 1) (r.size - (n + 1)) := by
  have hw : Discovery.waiting r (id :: rest) = List.range' n (r.size - n) := h.waiting
  rw [waiting_cons_of_unread hr] at hw
  have hlt : n < r.size := by
    by_contra hge
    rw [Nat.sub_eq_zero_of_le (Nat.not_lt.mp hge)] at hw
    cases hw
  rw [show r.size - n = r.size - (n + 1) + 1 by omega, List.range'_succ] at hw
  obtain ⟨rfl, hrest⟩ := List.cons.inj hw
  exact ⟨rfl, hlt, hrest⟩

theorem InOrder.skip {rest : List SourceId} {log : Array Log.Line}
    (h : InOrder w charset starts n ⟨r, id :: rest, log⟩)
    (hr : ∀ source, r.source? id = some source → source.isRead = true) :
    InOrder w charset starts n ⟨r, rest, log⟩ := by
  have hread : r.isRead id = true := by
    by_contra hn
    obtain ⟨rfl, hlt, -⟩ := h.front (Bool.not_eq_true _ ▸ hn)
    obtain ⟨source, hs⟩ : ∃ source, r.source? n = some source :=
      ⟨_, List.getElem?_eq_getElem hlt⟩
    exact hn ((Registry.isRead_of_source? hs).trans (hr source hs))
  exact ⟨h.isRead, h.bound, (waiting_cons_of_read hread).symm.trans h.waiting, h.locations, h.log⟩

/-- Of the numbers of the targets, those not left over before are the new ones. -/
theorem removeAll_left {rest : List SourceId} (hr : ∀ i : Nat, r.isRead i = decide (i < n))
    (hlt : n < r.size)
    (hrest : (rest.filter fun i => !i == n && !r.isRead i).eraseDups =
      List.range' (n + 1) (r.size - (n + 1)))
    (numbers : List SourceId) :
    (numbers.filter fun i => !i == n && !r.isRead i).removeAll
        (rest.filter fun i => !i == n && !r.isRead i) = numbers.filter (r.size ≤ ·) := by
  have hmem : ∀ i : Nat, i ∈ rest.filter (fun i => !i == n && !r.isRead i) ↔
      n + 1 ≤ i ∧ i < r.size := by
    intro i
    rw [← List.mem_eraseDups, hrest, List.mem_range'_1]
    omega
  rw [List.removeAll, List.filter_filter]
  apply List.filter_congr
  intro (i : Nat) _
  rw [Bool.eq_iff_iff, List.elem_eq_contains]
  simp only [Bool.and_eq_true, Bool.not_eq_true', List.contains_eq_mem, decide_eq_false_iff_not,
    hmem]
  simp only [hr, beq_eq_false_iff_ne, decide_eq_false_iff_not, decide_eq_true_eq]
  constructor
  · rintro ⟨hn, hne, hge⟩
    have hgt : n < i := lt_of_le_of_ne (Nat.not_lt.mp hge) (Ne.symm hne)
    omega
  · intro hge
    exact ⟨by omega, (hlt.trans_le hge).ne', by omega⟩

/-- Behind the numbers that are left over, those of the targets are new ones or have no effect. -/
theorem waiting_read {rest queued : List SourceId} (hr : ∀ i : Nat, r.isRead i = decide (i < n))
    (hlt : n < r.size) (hs : r.source? n = some source)
    (hrest : (rest.filter fun i => !i == n && !r.isRead i).eraseDups =
      List.range' (n + 1) (r.size - (n + 1)))
    (hv : (visit w charset r n source).value = .ok (t, queued)) :
    waiting t (rest ++ queued) = List.range' (n + 1) (t.size - (n + 1)) := by
  obtain ⟨octets, parsed, targets, -, -, -, he⟩ := visit_ok hv
  obtain ⟨ht, hq⟩ := Prod.mk.inj he
  have hread : ∀ i, t.isRead i = (i == n || r.isRead i) := isRead_of_visit hs hv
  have hqueued : queued.filter (!t.isRead ·) =
      (r.enterEach targets).2.filter fun i => !i == n && !r.isRead i := by
    rw [hq, List.filter_filter]
    apply List.filter_congr
    intro i _
    rw [hread, Registry.isRead_enterEach]
    cases r.isRead i <;> simp
  have hleft : rest.filter (!t.isRead ·) = rest.filter fun i => !i == n && !r.isRead i := by
    apply List.filter_congr
    intro i _
    rw [hread, Bool.not_or]
  have hsize : t.size = r.size + (r.fresh targets).length := by
    rw [ht, ← Registry.length_locations, Registry.locations_complete,
      Registry.locations_enterEach, List.length_append, Registry.length_locations]
  calc
    _ = (rest.filter fun i => !i == n && !r.isRead i).eraseDups ++
        ((r.enterEach targets).2.filter (r.size ≤ ·)).eraseDups := by
      rw [waiting, List.filter_append, hqueued, hleft, List.eraseDups_append,
        removeAll_left hr hlt hrest]
    _ = List.range' (n + 1) (r.size - (n + 1)) ++ List.range' r.size (r.fresh targets).length := by
      rw [hrest, Registry.eraseDups_enterEach]
    _ = List.range' (n + 1) (t.size - (n + 1)) := by
      have happ := List.range'_append_1 (s := n + 1) (m := r.size - (n + 1))
        (n := (r.fresh targets).length)
      rwa [Nat.add_sub_cancel' hlt, ← Nat.sub_add_comm hlt, ← hsize] at happ

theorem InOrder.read {rest queued : List SourceId} {log : Array Log.Line}
    (h : InOrder w charset starts n ⟨r, id :: rest, log⟩) (hs : r.source? id = some source)
    (hu : source.isRead = false) (hv : (visit w charset r id source).value = .ok (t, queued)) :
    n = id ∧ InOrder w charset starts (n + 1)
      ⟨t, rest ++ queued, log ++ (visit w charset r id source).log⟩ := by
  obtain ⟨rfl, hlt, hrest⟩ := h.front ((Registry.isRead_of_source? hs).trans hu)
  have hlocations := (visited_of_ok hs hu hv).locations
  have htake : t.locations.take (n + 1) = r.locations.take n ++ [source.location] := by
    have hid : r.locations[n]? = some source.location := by
      rw [← Registry.location?, Registry.location?_eq, hs]
      rfl
    rw [hlocations, List.take_append_of_le_length (by rwa [Registry.length_locations]),
      List.take_add_one, hid]
    rfl
  refine ⟨rfl, ?_, hlt.trans_le (lt_size_of_visit hv).1, waiting_read h.isRead hlt hs hrest hv,
    ?_, ?_⟩
  · intro (i : Nat)
    have hi : r.isRead i = decide (i < n) := h.isRead i
    simp only [isRead_of_visit hs hv, hi]
    rw [Bool.eq_iff_iff, Bool.or_eq_true, beq_iff_eq, decide_eq_true_eq, decide_eq_true_eq,
      Nat.lt_succ_iff_lt_or_eq, or_comm]
  · have hl : r.locations =
        (starts ++ (r.locations.take n).flatMap (w.targets charset)).eraseDups := h.locations
    simp only [htake, List.flatMap_append, List.flatMap_singleton]
    rw [hlocations, ← List.append_assoc]
    exact Registry.append_fresh hl _
  · have hlog : log.toList = (r.locations.take n).flatMap (w.account charset) := h.log
    simp only [htake, List.flatMap_append, List.flatMap_singleton, Array.toList_appendList, hlog,
      visit_log hv]

/-- A row of advances reads the next files. -/
theorem Reads.inOrder (h : Reads w charset a ids b) (ha : InOrder w charset starts n a) :
    ids = List.range' n ids.length ∧ InOrder w charset starts (n + ids.length) b := by
  induction h generalizing n with
  | none a => exact ⟨rfl, ha⟩
  | skip hr hb ih => exact ih (ha.skip hr)
  | read hs hu hv hb ih =>
    obtain ⟨rfl, hnext⟩ := ha.read hs hu hv
    obtain ⟨hids, hlast⟩ := ih hnext
    rw [List.length_cons, List.range'_succ, ← hids, Nat.add_comm _ 1, ← Nat.add_assoc]
    exact ⟨rfl, hlast⟩

theorem InOrder.done {log : Array Log.Line} (h : InOrder w charset starts n ⟨r, [], log⟩) :
    n = r.size ∧ r.locations = (starts ++ r.locations.flatMap (w.targets charset)).eraseDups ∧
      log.toList = r.locations.flatMap (w.account charset) := by
  have hw : List.range' n (r.size - n) = [] := h.waiting.symm
  rw [List.range'_eq_nil_iff] at hw
  have hn : n = r.size := Nat.le_antisymm h.bound (Nat.sub_eq_zero_iff_le.mp hw)
  have htake : r.locations.take n = r.locations := by
    rw [hn, ← Registry.length_locations, List.take_length]
  have hl := h.locations
  have hlog := h.log
  simp only [htake] at hl hlog
  exact ⟨hn, hl, hlog⟩

/-- Discovery that succeeds reads the files once each, in the order of their numbers. The numbers
are given first to the places of the entries and then to the targets of one file after the other,
each place where it is first named. -/
theorem discover_in_order (w : Workspace) (charset : Charset) (entries : List String)
    (d : Discovered) (h : (discover w charset entries).value = .ok d) :
    ∃ starts : List Location, entries.map w.canonical = starts.map .ok ∧
      (∃ r queue log, enterAll w .empty entries = .ok (r, queue) ∧
        Reads w charset ⟨r, queue, #[]⟩ (List.range d.registry.size) ⟨d.registry, [], log⟩) ∧
      (discover w charset entries).log = d.registry.locations.flatMap (w.account charset) ∧
      d.registry.locations =
        (starts ++ d.registry.locations.flatMap (w.targets charset)).eraseDups ∧
      d.entries = List.range starts.eraseDups.length ∧
      d.entries.map d.registry.location? = starts.eraseDups.map some := by
  obtain ⟨starts, hs, log, ha⟩ := discover_ok h
  obtain ⟨ids, hr⟩ := exists_reads ha
  obtain ⟨hids, hend⟩ := hr.inOrder (inOrder_begin w charset starts)
  obtain ⟨hn, hl, hlog⟩ := hend.done
  rw [Nat.zero_add] at hn
  rw [hn, ← List.range_eq_range'] at hids
  have hrun : discover w charset entries =
      ⟨.ok ⟨d.registry, (Registry.empty.enterEach starts).2.eraseDups⟩, log.toList⟩ := by
    simp only [discover, enterAll_of_canonical hs, runs_run_eq ha, run_nil]
    rfl
  have hentries : d.entries = List.range starts.eraseDups.length := by
    rw [hrun] at h
    rw [← Except.ok.inj h, Registry.eraseDups_enterEach_empty]
  have hpre : starts.eraseDups <+: d.registry.locations := by
    rw [hl, List.eraseDups_append]
    exact List.prefix_append _ _
  refine ⟨starts, hs, ⟨_, _, log, enterAll_of_canonical hs, hids ▸ hr⟩, ?_, hl, hentries, ?_⟩
  · rw [hrun, hlog]
  · rw [hentries, Registry.map_location?_range hpre]

theorem letters_in_order : (discover letters .utf8 ["a"]).value = .ok lettersFound ∧
    ∃ starts : List Location, ["a"].map letters.canonical = starts.map .ok ∧
      (∃ r queue log, enterAll letters .empty ["a"] = .ok (r, queue) ∧
        Reads letters .utf8 ⟨r, queue, #[]⟩ [0, 1, 2] ⟨lettersFound.registry, [], log⟩) ∧
      (discover letters .utf8 ["a"]).log =
        [["a"], ["c"], ["b"]].flatMap (letters.account .utf8) ∧
      [["a"], ["c"], ["b"]] =
        (starts ++ [["a"], ["c"], ["b"]].flatMap (letters.targets .utf8)).eraseDups ∧
      [0] = List.range starts.eraseDups.length ∧
      [some ["a"]] = starts.eraseDups.map some :=
  ⟨discover_letters, discover_in_order letters .utf8 ["a"] lettersFound discover_letters⟩

end Discovery

end SourceBundle
