import SourceBundle.Proofs.Discovery.Moments
import SourceBundle.Proofs.Discovery.Queue

/-! # Discovery, moment by moment

While the files do not change, the moments of a discovery lead to the result of the discovery. For
each phase this is told with a `k` for what comes after it: if the moments that follow on the phase
end with what `k` makes of its outcome, so do those from its start.
-/
namespace SourceBundle.Discovery

variable {w : Workspace} {charset : Charset} {r t : Registry} {queue entries ids : List SourceId}
  {m n : Moment} {result : Except Error Discovered} {e : Error}

/-- The moments that follow, as long as the files do not change, end with a result. -/
inductive Ends (w : Workspace) (charset : Charset) : Moment → Except Error Discovered → Prop
  | finished {m : Moment} {result : Except Error Discovered}
      (h : m.step? w charset = some (.finished result)) : Ends w charset m result
  | next {m n : Moment} {result : Except Error Discovered}
      (h : m.step? w charset = some (.next n)) (hn : Ends w charset n result) :
    Ends w charset m result

theorem bind_map {α β γ ε : Type} (x : Except ε α) (f : α → β) (k : β → Except ε γ) :
    (x.map f).bind k = x.bind fun a => k (f a) := bind_map_left f x k

theorem bind_bind {α β γ ε : Type} (x : Except ε α) (f : α → Except ε β) (k : β → Except ε γ) :
    (x.bind f).bind k = x.bind fun a => (f a).bind k := bind_assoc x f k

/-! ## Entering -/

theorem eraseDups_concat (seen : List SourceId) (id : SourceId) :
    (seen ++ [id]).eraseDups =
      if id ∈ seen.eraseDups then seen.eraseDups else seen.eraseDups ++ [id] := by
  rw [List.eraseDups_append, List.cons_removeAll, List.nil_removeAll]
  by_cases h : id ∈ seen <;> simp [h, List.eraseDups_cons]

theorem ends_entering {paths : List String} {seen : List SourceId}
    {k : Registry × List SourceId → Except Error Discovered}
    (hk : ∀ t ids, enterAll w r paths = .ok (t, ids) →
      Ends w charset ⟨t, queue ++ ids, (seen ++ ids).eraseDups, .taking⟩ (k (t, ids))) :
    Ends w charset ⟨r, queue, seen.eraseDups, .entering paths⟩ ((enterAll w r paths).bind k) := by
  induction paths generalizing r queue seen k with
  | nil =>
    have hn := hk r [] rfl
    rw [List.append_nil, List.append_nil] at hn
    exact .next rfl hn
  | cons path paths ih =>
    simp only [enterAll] at hk ⊢
    cases hget : r.get w path with
    | error e => exact .finished (by simp only [Moment.step?, hget, Except.bind])
    | ok p =>
      obtain ⟨t, id⟩ := p
      simp only [hget] at hk ⊢
      rw [bind_map]
      refine .next (n := ⟨t, queue ++ [id], (seen ++ [id]).eraseDups, .entering paths⟩) ?_
        (ih fun s ids hrest => ?_)
      · simp only [Moment.step?, hget, eraseDups_concat]
      · rw [List.append_assoc, List.append_assoc]
        exact hk s (id :: ids) (by rw [hrest]; rfl)

/-! ## Reading -/

/-- Entering files reads none of them. -/
theorem isRead_of_link {source : Source} {references : List String}
    (h : (link w source r references).value = .ok (t, ids)) (i : SourceId) :
    t.isRead i = r.isRead i := by
  obtain ⟨targets, -, he⟩ := link_eq_enterEach h
  obtain ⟨rfl, -⟩ := Prod.mk.inj he
  exact Registry.isRead_enterEach r targets i

theorem ends_following {f : Reading} {references : List String}
    {k : Registry × List SourceId → Except Error Discovered}
    (hk : ∀ t ids, (link w f.source r references).value = .ok (t, ids) →
      Ends w charset ⟨t, queue ++ ids.filter (!t.isRead ·), entries,
        .following { f with dependencies := f.dependencies ++ ids } []⟩ (k (t, ids))) :
    Ends w charset ⟨r, queue, entries, .following f references⟩
      ((link w f.source r references).value.bind k) := by
  induction references generalizing r queue f k with
  | nil =>
    have hn := hk r [] rfl
    rw [List.filter_nil, List.append_nil, List.append_nil] at hn
    exact hn
  | cons reference references ih =>
    simp only [link] at hk ⊢
    by_cases hfile : w.isFile (Directive.resolve f.source.directory reference) = true
    · rw [if_pos hfile] at hk ⊢
      refine .next (by simp only [Moment.step?, if_pos hfile]; rfl) ?_
      cases hget : r.get w (Directive.resolve f.source.directory reference) with
      | error e => exact .finished (by simp only [Moment.step?, hget, Except.bind])
      | ok p =>
        obtain ⟨t, id⟩ := p
        simp only [hget] at hk ⊢
        rw [bind_map]
        obtain ⟨found, hfound, -⟩ := Registry.exists_source (Registry.lt_size_of_get hget)
        refine .next (by simp only [Moment.step?, hget, hfound]; rfl)
          (ih (f := { f with dependencies := f.dependencies ++ [id] }) fun s ids hrest => ?_)
        have hn := hk s (id :: ids) (by rw [hrest]; rfl)
        -- The moments queue a file as it is entered, discovery once all of them have been.
        have hread := (isRead_of_link hrest _).trans (Registry.isRead_of_source? hfound)
        rw [List.append_assoc, List.singleton_append]
        cases hr : found.isRead with
        | true =>
          rw [hr] at hread
          rwa [List.filter_cons_of_neg (by simp [hread])] at hn
        | false =>
          rw [hr] at hread
          rw [List.filter_cons_of_pos (by simp [hread])] at hn
          simpa using hn
    · rw [if_neg hfile] at hk ⊢
      exact .finished (by simp only [Moment.step?, if_neg hfile, Except.bind])

theorem visit_value (w : Workspace) (charset : Charset) (r : Registry) (id : SourceId)
    (source : Source) : (visit w charset r id source).value =
      (parsed w charset source).bind fun p =>
        (link w source r p.requires).value.bind fun (t, ids) =>
          .ok ((t.complete id p.contents ids).1, ids.filter (!t.isRead ·)) := by
  unfold visit parsed
  cases w.files.read source.location with
  | error fault => rfl
  | ok octets =>
    simp only
    cases Directive.parse source.path (charset.decode octets) with
    | error e => rfl
    | ok p =>
      simp only [Except.bind]
      cases hl : (link w source r p.requires).value <;> rfl

theorem ends_visit {id : SourceId} {source : Source} (hs : r.source? id = some source)
    (hu : source.isRead = false) {k : Registry × List SourceId → Except Error Discovered}
    (hk : ∀ t queued, (visit w charset r id source).value = .ok (t, queued) →
      Ends w charset ⟨t, queue ++ queued, entries, .taking⟩ (k (t, queued))) :
    Ends w charset ⟨r, id :: queue, entries, .taking⟩
      ((visit w charset r id source).value.bind k) := by
  rw [visit_value] at hk ⊢
  cases hp : parsed w charset source with
  | error e => exact .finished (by simp [Moment.step?, hs, hu, hp, Except.bind])
  | ok p =>
    rw [hp] at hk
    refine .next (n := ⟨r, queue, entries, .following ⟨id, source, p.contents, []⟩ p.requires⟩)
      (by simp [Moment.step?, hs, hu, hp]) ?_
    rw [Except.bind, bind_bind]
    refine ends_following fun t ids hl => ?_
    have hid : id < t.size := (List.getElem?_eq_some_iff.mp ((link_ok hl).2 id source hs)).1
    refine .next (by simp only [Moment.step?, Registry.complete?, if_pos hid]; rfl) ?_
    exact hk _ _ (by simp only [Except.bind, hl, List.nil_append])

/-- Taking numbers from the queue is the run of the worklist, as long as they are in range. -/
theorem ends_taking (a : State) (h : ∀ i ∈ a.queue, i < a.registry.size) :
    Ends w charset ⟨a.registry, a.queue, entries, .taking⟩
      ((run w charset a).value.map fun t => ⟨t, entries⟩) := by
  induction a using run_induction with
  | done r log =>
    rw [run_nil]
    exact .finished rfl
  | stuck r id rest log source e hs hu he =>
    have hends : Ends w charset ⟨r, id :: rest, entries, .taking⟩
        ((visit w charset r id source).value.bind fun _ => .error e) :=
      ends_visit hs hu fun t queued hv => by cases he.symm.trans hv
    rw [he] at hends
    rw [run_error hs hu he]
    exact hends
  | advance a b ha ih =>
    rw [ha.run_eq]
    cases ha with
    | skip r id rest log hread =>
      obtain ⟨source, hs, -⟩ := Registry.exists_source (h id List.mem_cons_self)
      refine .next (n := ⟨r, rest, entries, .taking⟩) ?_
        (ih fun i hi => h i (List.mem_cons_of_mem id hi))
      simp [Moment.step?, hs, hread source hs]
    | read r id rest log source t queued hs hu hv =>
      have hrest : ∀ i ∈ rest, i < r.size := fun i hi => h i (List.mem_cons_of_mem id hi)
      obtain ⟨hle, hqueued⟩ := lt_size_of_visit hv
      have hqueue : ∀ i ∈ rest ++ queued, i < t.size :=
        List.forall_mem_append.mpr ⟨fun i hi => (hrest i hi).trans_le hle, hqueued⟩
      have hends : Ends w charset ⟨r, id :: rest, entries, .taking⟩
          ((visit w charset r id source).value.bind fun _ =>
            (run w charset _).value.map fun t => ⟨t, entries⟩) :=
        ends_visit hs hu fun t' queued' hv' => by
          cases hv.symm.trans hv'
          exact ih hqueue
      rw [hv] at hends
      exact hends

theorem ends_discover (w : Workspace) (charset : Charset) (paths : List String) :
    Ends w charset (.start paths) (discover w charset paths).value := by
  have hvalue : (discover w charset paths).value = (enterAll w .empty paths).bind fun p =>
      (run w charset { registry := p.1, queue := p.2 }).value.map fun t => ⟨t, p.2.eraseDups⟩ := by
    unfold discover
    cases enterAll w .empty paths <;> rfl
  rw [hvalue]
  change Ends w charset ⟨.empty, [], [].eraseDups, .entering paths⟩ _
  refine ends_entering fun t ids hentered => ends_taking { registry := t, queue := ids } ?_
  obtain ⟨starts, -, he⟩ := enterAll_eq_enterEach hentered
  obtain ⟨rfl, rfl⟩ := Prod.mk.inj he
  exact fun i hi => Registry.lt_size_of_mem_enterEach hi

end SourceBundle.Discovery
