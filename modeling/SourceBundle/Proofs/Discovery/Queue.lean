import SourceBundle.Proofs.Discovery.Success

/-! # What a queue amounts to

A number in the queue has no effect if its file has been read or if it also stands further in
front. So the run depends only on what is left without such numbers, and discovery only on the
places of the entries in the order of their first mention.
-/
namespace SourceBundle

theorem eraseDups_append_congr {α : Type} [BEq α] [LawfulBEq α] {xs ys : List α}
    (h : xs.eraseDups = ys.eraseDups) (zs : List α) :
    (xs ++ zs).eraseDups = (ys ++ zs).eraseDups := by
  have hmem : ∀ z, z ∈ xs ↔ z ∈ ys := by
    intro z
    rw [← List.mem_eraseDups, h, List.mem_eraseDups]
  have hrest : zs.removeAll xs = zs.removeAll ys := by
    unfold List.removeAll
    apply List.filter_congr
    intro z _
    rw [Bool.eq_iff_iff]
    simp [hmem]
  rw [List.eraseDups_append, List.eraseDups_append, h, hrest]

theorem eraseDups_map {α β : Type} [BEq α] [LawfulBEq α] [BEq β] [LawfulBEq β] {f : α → β}
    {xs : List α} (hf : ∀ x ∈ xs, ∀ y ∈ xs, f x = f y → x = y) :
    (xs.map f).eraseDups = xs.eraseDups.map f := by
  induction hn : xs.length using Nat.strong_induction_on generalizing xs with
  | _ n ih =>
    cases xs with
    | nil => rfl
    | cons x xs =>
      have hfilter : (xs.map f).filter (fun b => !b == f x) =
          (xs.filter fun a => !a == x).map f := by
        rw [List.filter_map]
        congr 1
        apply List.filter_congr
        intro y hy
        have hxy : f y = f x ↔ y = x :=
          ⟨hf y (List.mem_cons_of_mem x hy) x List.mem_cons_self, congrArg f⟩
        rw [Bool.eq_iff_iff]
        simp [hxy]
      have hlen : (xs.filter fun a => !a == x).length < n := by
        have := List.length_filter_le (fun a => !a == x) xs
        rw [List.length_cons] at hn
        omega
      have hsub : ∀ y ∈ xs.filter (fun a => !a == x), y ∈ x :: xs :=
        fun y hy => List.mem_cons_of_mem x (List.mem_of_mem_filter hy)
      rw [List.map_cons, List.eraseDups_cons, List.eraseDups_cons, List.map_cons, hfilter,
        ih _ hlen (fun y hy z hz => hf y (hsub y hy) z (hsub z hz)) rfl]

namespace Registry

variable {r : Registry} {id : SourceId} {l : Location} {ids : List SourceId} {ls : List Location}

/-- The number of a location; any will do where there is none. -/
def idOf (r : Registry) (l : Location) : SourceId := (r.idOf? l).getD 0

theorem idOf_of_location? (h : r.location? id = some l) : r.idOf l = id := by
  cases hid : r.idOf? l with
  | none => exact absurd (List.mem_of_getElem? h) (not_mem_of_idOf? hid)
  | some j =>
    rw [idOf, hid]
    exact eq_of_location? (idOf?_eq_some hid) h

theorem location?_idOf (h : l ∈ r.locations) : r.location? (r.idOf l) = some l := by
  obtain ⟨i, hi⟩ := List.mem_iff_getElem?.mp h
  rw [idOf_of_location? hi]
  exact hi

theorem map_idOf (h : ids.map r.location? = ls.map some) : ls.map r.idOf = ids := by
  have hm := congrArg (List.map fun l? : Option Location => l?.elim 0 r.idOf) h
  rw [List.map_map, List.map_map] at hm
  refine hm.symm.trans ?_
  rw [List.map_congr_left (g := id), List.map_id]
  intro i hi
  have hsome : r.location? i ∈ ls.map some := h ▸ List.mem_map_of_mem hi
  obtain ⟨l, -, hl⟩ := List.mem_map.mp hsome
  simp only [Function.comp_apply, ← hl, Option.elim_some]
  exact idOf_of_location? hl.symm

theorem fresh_empty (ls : List Location) : empty.fresh ls = ls.eraseDups := by
  simp [fresh, locations, empty]

/-- A registry is known by its records. -/
theorem eq_of_sources {s t : Registry} (h : s.sources = t.sources) : s = t := by
  cases s
  cases t
  cases h
  rfl

theorem enterEach_empty_congr {ls ms : List Location} (h : ls.eraseDups = ms.eraseDups) :
    (empty.enterEach ls).1 = (empty.enterEach ms).1 ∧
      (empty.enterEach ls).2.eraseDups = (empty.enterEach ms).2.eraseDups := by
  have hr : (empty.enterEach ls).1 = (empty.enterEach ms).1 := by
    apply eq_of_sources
    rw [sources_enterEach, sources_enterEach, fresh_empty, fresh_empty, h]
  have hids : ∀ ls : List Location, (empty.enterEach ls).2.eraseDups =
      ls.eraseDups.map (empty.enterEach ls).1.idOf := by
    intro ls
    have hl := map_location?_enterEach empty ls
    have hloc : ∀ l ∈ ls, (empty.enterEach ls).1.location? ((empty.enterEach ls).1.idOf l) =
        some l := by
      intro l hm
      apply location?_idOf
      rw [locations_enterEach, fresh_empty]
      exact List.mem_append_right _ (List.mem_eraseDups.mpr hm)
    calc
      (empty.enterEach ls).2.eraseDups = (ls.map (empty.enterEach ls).1.idOf).eraseDups := by
        rw [map_idOf hl]
      _ = ls.eraseDups.map (empty.enterEach ls).1.idOf := by
        apply eraseDups_map
        intro l hm m hm' he
        have hlm := hloc l hm
        rw [he, hloc m hm'] at hlm
        exact (Option.some.inj hlm).symm
  exact ⟨hr, by rw [hids, hids, hr, h]⟩

end Registry

namespace Discovery

variable {w : Workspace} {charset : Charset} {r t : Registry} {id : SourceId}
  {front rest rest' queue queued ids : List SourceId} {log : Array Log.Line} {source : Source}

/-- What a queue amounts to: the numbers of files not read yet, each once. -/
def waiting (r : Registry) (queue : List SourceId) : List SourceId :=
  (queue.filter (!r.isRead ·)).eraseDups

theorem waiting_cons_of_read (h : r.isRead id = true) :
    waiting r (id :: rest) = waiting r rest := by
  rw [waiting, List.filter_cons_of_neg (by simp [h]), waiting]

theorem waiting_cons_of_unread (h : r.isRead id = false) :
    waiting r (id :: rest) =
      id :: (rest.filter fun i => !i == id && !r.isRead i).eraseDups := by
  rw [waiting, List.filter_cons_of_pos (by simp [h]), List.eraseDups_cons, List.filter_filter]

/-- Up to the first number that counts, every file has been read. -/
theorem split_waiting (h : waiting r queue = id :: ids) :
    ∃ front rest, queue = front ++ id :: rest ∧ (∀ i ∈ front, r.isRead i = true) ∧
      waiting r (id :: rest) = id :: ids := by
  induction queue with
  | nil => cases h
  | cons i queue ih =>
    cases hi : r.isRead i with
    | true =>
      rw [waiting_cons_of_read hi] at h
      obtain ⟨front, rest, rfl, hfront, hw⟩ := ih h
      exact ⟨i :: front, rest, rfl, List.forall_mem_cons.mpr ⟨hi, hfront⟩, hw⟩
    | false =>
      have hid : i = id := by
        rw [waiting_cons_of_unread hi] at h
        exact (List.cons.inj h).1
      subst hid
      exact ⟨[], queue, rfl, List.forall_mem_nil _, h⟩

theorem isRead_of_waiting_eq_nil (h : waiting r queue = []) : ∀ i ∈ queue, r.isRead i = true := by
  intro i hi
  cases hr : r.isRead i with
  | true => rfl
  | false =>
    have hm : i ∈ waiting r queue :=
      List.mem_eraseDups.mpr (List.mem_filter.mpr ⟨hi, by simp [hr]⟩)
    rw [h] at hm
    cases hm

theorem run_skips (h : ∀ i ∈ front, r.isRead i = true) :
    run w charset ⟨r, front ++ rest, log⟩ = run w charset ⟨r, rest, log⟩ := by
  induction front with
  | nil => rfl
  | cons i front ih =>
    obtain ⟨hi, hfront⟩ := List.forall_mem_cons.mp h
    have hskip : ∀ source, r.source? i = some source → source.isRead = true := by
      intro source hs
      rwa [Registry.isRead_of_source? hs] at hi
    rw [List.cons_append, (Advance.skip r i (front ++ rest) log hskip).run_eq]
    exact ih hfront

/-! ## Reading a file -/

theorem isRead_of_visit (hs : r.source? id = some source)
    (hv : (visit w charset r id source).value = .ok (t, queued)) (i : SourceId) :
    t.isRead i = (i == id || r.isRead i) := by
  obtain ⟨octets, parsed, targets, -, -, -, he⟩ := visit_ok hv
  cases he
  rw [Registry.isRead_complete (Registry.source?_enterEach hs), Registry.isRead_enterEach]

theorem lt_size_of_visit (hv : (visit w charset r id source).value = .ok (t, queued)) :
    r.size ≤ t.size ∧ ∀ i ∈ queued, i < t.size := by
  obtain ⟨octets, parsed, targets, -, -, -, he⟩ := visit_ok hv
  cases he
  rw [← Registry.length_locations, ← Registry.length_locations, Registry.locations_complete]
  refine ⟨(Registry.prefix_enterEach r targets).length_le, ?_⟩
  intro i hi
  rw [Registry.length_locations]
  exact Registry.lt_size_of_mem_enterEach (List.mem_of_mem_filter hi)

/-- Queues that amount to the same still do after the file in front has been read. -/
theorem waiting_of_visit (hs : r.source? id = some source) (hu : source.isRead = false)
    (hv : (visit w charset r id source).value = .ok (t, queued))
    (h : waiting r (id :: rest) = waiting r (id :: rest')) :
    waiting t (rest ++ queued) = waiting t (rest' ++ queued) := by
  have hid : r.isRead id = false := (Registry.isRead_of_source? hs).trans hu
  have hunread : ∀ ids : List SourceId, ids.filter (!t.isRead ·) =
      ids.filter fun i => !i == id && !r.isRead i := by
    intro ids
    apply List.filter_congr
    intro i _
    rw [isRead_of_visit hs hv, Bool.not_or]
  rw [waiting_cons_of_unread hid, waiting_cons_of_unread hid] at h
  rw [waiting, waiting, List.filter_append, List.filter_append, hunread rest, hunread rest']
  exact eraseDups_append_congr (List.cons.inj h).2 _

/-! ## Runs -/

/-- What a run comes to depends on its queue only through what that amounts to. -/
theorem run_congr (s : State) (hin : ∀ i ∈ s.queue, i < s.registry.size)
    (h : waiting s.registry queue = waiting s.registry s.queue) :
    (run w charset ⟨s.registry, queue, log⟩).value = (run w charset s).value := by
  induction s using run_induction generalizing queue log with
  | done r log' =>
    have hread := isRead_of_waiting_eq_nil h
    have hskip : run w charset ⟨r, queue ++ [], log⟩ = run w charset ⟨r, [], log⟩ :=
      run_skips hread
    rw [List.append_nil] at hskip
    rw [hskip, run_nil, run_nil]
  | stuck r id rest log' source e hs hu he =>
    have hid : r.isRead id = false := (Registry.isRead_of_source? hs).trans hu
    rw [waiting_cons_of_unread hid] at h
    obtain ⟨front, rest', rfl, hfront, -⟩ := split_waiting h
    rw [run_skips hfront, run_error hs hu he, run_error hs hu he]
  | advance a b ha ih =>
    have hrun := ha.run_eq
    cases ha with
    | skip r id rest log' hskip =>
      obtain ⟨hlt, hrest⟩ := List.forall_mem_cons.mp hin
      have hsource : r.source? id = some r.sources[id] := List.getElem?_eq_getElem hlt
      have hid : r.isRead id = true := (Registry.isRead_of_source? hsource).trans (hskip _ hsource)
      rw [hrun]
      exact ih hrest (h.trans (waiting_cons_of_read hid))
    | read r id rest log' source t queued hs hu hv =>
      have hid : r.isRead id = false := (Registry.isRead_of_source? hs).trans hu
      obtain ⟨front, rest', rfl, hfront, hw⟩ := split_waiting (h.trans (waiting_cons_of_unread hid))
      rw [← waiting_cons_of_unread hid] at hw
      obtain ⟨hsize, hqueued⟩ := lt_size_of_visit hv
      have hin' : ∀ i ∈ rest ++ queued, i < t.size := by
        intro i hi
        rcases List.mem_append.mp hi with hi | hi
        · exact (hin i (List.mem_cons_of_mem id hi)).trans_le hsize
        · exact hqueued i hi
      rw [run_skips hfront, (Advance.read r id rest' log source t queued hs hu hv).run_eq, hrun]
      exact ih hin' (waiting_of_visit hs hu hv hw)

/-! ## Entries -/

theorem enterAll_of_canonical {entries : List String} {starts : List Location}
    (h : entries.map w.canonical = starts.map .ok) :
    enterAll w r entries = .ok (r.enterEach starts) := by
  obtain ⟨p, hp⟩ := enterAll_isOk (Workspace.exists_canonical h) (r := r)
  obtain ⟨starts', hs, rfl⟩ := enterAll_eq_enterEach hp
  have hstarts : starts' = starts :=
    List.map_injective_iff.mpr (fun _ _ => Except.ok.inj) (hs.symm.trans h)
  rw [hp, hstarts]

/-- What discovery finds depends on its entries only through the order in which the places that they
lead to are first mentioned. -/
theorem discover_congr {entries entries' : List String} {starts starts' : List Location}
    (hs : entries.map w.canonical = starts.map .ok)
    (hs' : entries'.map w.canonical = starts'.map .ok) (h : starts.eraseDups = starts'.eraseDups) :
    (discover w charset entries).value = (discover w charset entries').value := by
  obtain ⟨hregistry, hids⟩ := Registry.enterEach_empty_congr h
  have hwaiting : ∀ (starts : List Location) (queue : List SourceId),
      waiting (Registry.empty.enterEach starts).1 queue = queue.eraseDups := by
    intro starts queue
    rw [waiting, List.filter_eq_self.mpr]
    intro i _
    rw [Registry.isRead_enterEach]
    rfl
  have hqueues : waiting (Registry.empty.enterEach starts').1 (Registry.empty.enterEach starts).2 =
      waiting (Registry.empty.enterEach starts').1 (Registry.empty.enterEach starts').2 := by
    rw [hwaiting, hwaiting, hids]
  have hrun : (run w charset
      ⟨(Registry.empty.enterEach starts').1, (Registry.empty.enterEach starts).2, #[]⟩).value =
        (run w charset
          ⟨(Registry.empty.enterEach starts').1, (Registry.empty.enterEach starts').2, #[]⟩).value :=
    run_congr ⟨_, _, #[]⟩ (fun _ => Registry.lt_size_of_mem_enterEach) hqueues
  simp only [discover, enterAll_of_canonical hs, enterAll_of_canonical hs', Logged.map]
  rw [hregistry, hrun, hids]

end Discovery

end SourceBundle
