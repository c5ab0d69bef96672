import SourceBundle.Proofs.Discovery.Targets

/-! # The run of the worklist

A run advances by dropping a number whose file has been read, or by reading one file. What every
advance preserves holds when the queue is empty.
-/
namespace SourceBundle.Discovery

variable {w : Workspace} {charset : Charset} {r t : Registry}

theorem get_ok_enterEach {path : String} {p : Registry × SourceId} (h : r.get w path = .ok p)
    (rest : List Location) :
    ∃ l, w.canonical path = .ok l ∧ r.enterEach (l :: rest) =
      ((p.1.enterEach rest).1, p.2 :: (p.1.enterEach rest).2) := by
  obtain ⟨l, hl, he⟩ := get_ok h
  exact ⟨l, hl, by simp only [Registry.enterEach, he]⟩

theorem link_eq_enterEach {source : Source} {references : List String}
    {p : Registry × List SourceId} (h : (link w source r references).value = .ok p) :
    ∃ targets : List Location,
      references.map (w.target source.location) = targets.map .ok ∧ p = r.enterEach targets := by
  induction references generalizing r p with
  | nil =>
    cases h
    exact ⟨[], rfl, rfl⟩
  | cons reference references ih =>
    simp only [link] at h
    split at h
    · split at h
      · cases h
      · rename_i t id hget
        cases hl : (link w source t references).value with
        | error e => rw [hl] at h; cases h
        | ok q =>
          rw [hl] at h
          cases h
          obtain ⟨targets, ht, rfl⟩ := ih hl
          obtain ⟨l, hc, he⟩ := get_ok_enterEach hget targets
          have hc' : w.target source.location reference = .ok l := hc
          exact ⟨l :: targets, by rw [List.map_cons, List.map_cons, hc', ht], he.symm⟩
    · cases h

theorem enterAll_eq_enterEach {entries : List String} {p : Registry × List SourceId}
    (h : enterAll w r entries = .ok p) :
    ∃ starts : List Location, entries.map w.canonical = starts.map .ok ∧
      p = r.enterEach starts := by
  induction entries generalizing r p with
  | nil =>
    cases h
    exact ⟨[], rfl, rfl⟩
  | cons entry entries ih =>
    simp only [enterAll] at h
    split at h
    · cases h
    · rename_i t id hget
      cases hl : enterAll w t entries with
      | error e => rw [hl] at h; cases h
      | ok q =>
        rw [hl] at h
        cases h
        obtain ⟨starts, ht, rfl⟩ := ih hl
        obtain ⟨l, hc, he⟩ := get_ok_enterEach hget starts
        exact ⟨l :: starts, by rw [List.map_cons, List.map_cons, hc, ht], he.symm⟩

theorem visit_ok {id : SourceId} {source : Source} {p : Registry × List SourceId}
    (h : (visit w charset r id source).value = .ok p) :
    ∃ octets parsed, ∃ targets : List Location, w.files.read source.location = .ok octets ∧
      Directive.parse source.path (charset.decode octets) = .ok parsed ∧
      parsed.requires.map (w.target source.location) = targets.map .ok ∧
      p = (((r.enterEach targets).1.complete id parsed.contents (r.enterEach targets).2).1,
        (r.enterEach targets).2.filter (!(r.enterEach targets).1.isRead ·)) := by
  simp only [visit] at h
  split at h
  · cases h
  · rename_i octets hread
    split at h
    · cases h
    · rename_i parsed hparse
      split at h
      · cases h
      · rename_i t ids hlink
        cases h
        obtain ⟨targets, ht, he⟩ := link_eq_enterEach hlink
        refine ⟨octets, parsed, targets, hread, hparse, ht, ?_⟩
        rw [← he]

/-- What reading the file of a record leaves: the record says what the file says, its targets are
registered, and every other record is an old one or unread and queued. -/
structure Visited (w : Workspace) (charset : Charset) (r : Registry) (id : SourceId)
    (source : Source) (t : Registry) (queued : List SourceId) : Prop where
  locations : t.locations = r.locations ++ r.fresh (w.targets charset source.location)
  record : ∀ s, t.source? id = some s → s.isRead = true ∧ s.Faithful w charset t
  others : ∀ i s, i ≠ id → t.source? i = some s →
    r.source? i = some s ∨ s.isRead = false ∧ i ∈ queued

theorem visited_of_ok {id : SourceId} {source : Source} {queued : List SourceId}
    (hs : r.source? id = some source) (hu : source.isRead = false)
    (hv : (visit w charset r id source).value = .ok (t, queued)) :
    Visited w charset r id source t queued := by
  obtain ⟨octets, parsed, targets, hread, hparse, ht, he⟩ := visit_ok hv
  cases he
  refine ⟨?_, ?_, ?_⟩
  · rw [Registry.locations_complete, Registry.locations_enterEach,
      Workspace.targets_eq hread hparse ht]
  · intro s hi
    rw [Registry.source?_complete, if_pos rfl, Registry.source?_enterEach hs, Option.map_some,
      Registry.record_of_unread hu] at hi
    cases hi
    refine ⟨rfl, octets, parsed, targets, hread, hparse, rfl, ht, ?_⟩
    rw [Registry.location?_complete]
    exact Registry.map_location?_enterEach r targets
  · intro i s hne hi
    rw [Registry.source?_complete, if_neg hne] at hi
    rcases Registry.source?_of_enterEach hi with ho | ⟨hsu, -, hm⟩
    · exact Or.inl ho
    · have hn : (r.enterEach targets).1.isRead i = false := by
        rw [Registry.isRead, hi]
        exact hsu
      exact Or.inr ⟨hsu, List.mem_filter.mpr ⟨hm, by rw [hn]; rfl⟩⟩

/-! ## Advances -/

inductive Advance (w : Workspace) (charset : Charset) : State → State → Prop
  /-- The file has been read before. -/
  | skip (r : Registry) (id : SourceId) (rest : List SourceId) (log : Array Log.Line)
      (h : ∀ source, r.source? id = some source → source.isRead = true) :
    Advance w charset ⟨r, id :: rest, log⟩ ⟨r, rest, log⟩
  | read (r : Registry) (id : SourceId) (rest : List SourceId) (log : Array Log.Line)
      (source : Source) (t : Registry) (queued : List SourceId)
      (hs : r.source? id = some source) (hu : source.isRead = false)
      (hv : (visit w charset r id source).value = .ok (t, queued)) :
    Advance w charset ⟨r, id :: rest, log⟩
      ⟨t, rest ++ queued, log ++ (visit w charset r id source).log⟩

variable {a b : State}

theorem run_nil (r : Registry) (log : Array Log.Line) :
    run w charset ⟨r, [], log⟩ = ⟨.ok r, log.toList⟩ := by
  rw [run]

theorem Advance.run_eq (h : Advance w charset a b) : run w charset a = run w charset b := by
  cases h with
  | skip r id rest log h =>
    rw [run]
    simp only
    split
    · rfl
    · rename_i source hs
      rw [dif_pos (h source hs)]
  | read r id rest log source t queued hs hu hv =>
    rw [run]
    simp only
    split
    · rename_i hn
      rw [hs] at hn
      cases hn
    · rename_i source' hs'
      rw [hs] at hs'
      cases hs'
      rw [dif_neg (by simp [hu])]
      split
      · rename_i e he
        rw [hv] at he
        cases he
      · rename_i u ids he
        rw [hv] at he
        cases he
        rfl

theorem runs_run_eq (h : Relation.ReflTransGen (Advance w charset) a b) :
    run w charset a = run w charset b := by
  induction h with
  | refl => rfl
  | tail _ ha ih => exact ih.trans ha.run_eq

theorem run_stuck {id : SourceId} {rest : List SourceId} {log : Array Log.Line} {source : Source}
    {e : Error} (hs : r.source? id = some source) (hu : source.isRead = false)
    (he : (visit w charset r id source).value = .error e) :
    run w charset ⟨r, id :: rest, log⟩ =
      ⟨.error e, log.toList ++ (visit w charset r id source).log⟩ := by
  rw [run]
  simp only
  split
  · rename_i hn
    rw [hs] at hn
    cases hn
  · rename_i source' hs'
    rw [hs] at hs'
    cases hs'
    rw [dif_neg (by simp [hu])]
    split
    · rename_i e' he'
      rw [he] at he'
      cases he'
      rfl
    · rename_i t ids ht
      rw [he] at ht
      cases ht

theorem run_error {id : SourceId} {rest : List SourceId} {log : Array Log.Line} {source : Source}
    {e : Error} (hs : r.source? id = some source) (hu : source.isRead = false)
    (he : (visit w charset r id source).value = .error e) :
    (run w charset ⟨r, id :: rest, log⟩).value = .error e :=
  congrArg Logged.value (run_stuck hs hu he)

/-- To prove something of every state, it is enough to prove it of the states that cannot advance,
with an empty queue or with a file in front that cannot be read, and to pass it back along an
advance. -/
theorem run_induction {P : State → Prop} (done : ∀ r log, P ⟨r, [], log⟩)
    (stuck : ∀ r id rest log source e, r.source? id = some source → source.isRead = false →
      (visit w charset r id source).value = .error e → P ⟨r, id :: rest, log⟩)
    (advance : ∀ a b, Advance w charset a b → P b → P a) (a : State) : P a := by
  induction a using run.induct w charset with
  | case1 s hq =>
    obtain ⟨registry, queue, log⟩ := s
    cases hq
    exact done registry log
  | case2 s id rest hq hs ih =>
    obtain ⟨registry, queue, log⟩ := s
    cases hq
    exact advance _ _ (.skip registry id rest log fun source hs' => by cases hs.symm.trans hs') ih
  | case3 s id rest hq source hs hr ih =>
    obtain ⟨registry, queue, log⟩ := s
    cases hq
    refine advance _ _ (.skip registry id rest log fun source' hs' => ?_) ih
    cases hs.symm.trans hs'
    exact hr
  | case4 s id rest hq source hs hr e he =>
    obtain ⟨registry, queue, log⟩ := s
    cases hq
    exact stuck registry id rest log source e hs (by simpa using hr) he
  | case5 s id rest hq source hs hr t ids hv ih =>
    obtain ⟨registry, queue, log⟩ := s
    cases hq
    exact advance _ _ (.read registry id rest log source t ids hs (by simpa using hr) hv) ih

/-- A run that succeeds has advanced until the queue was empty. -/
theorem run_ok (h : (run w charset a).value = .ok r) :
    ∃ log, Relation.ReflTransGen (Advance w charset) a ⟨r, [], log⟩ := by
  induction a using run_induction with
  | done t log =>
    rw [run_nil] at h
    cases h
    exact ⟨log, .refl⟩
  | stuck t id rest log source e hs hu he =>
    rw [run_error hs hu he] at h
    cases h
  | advance a b ha ih =>
    obtain ⟨log, hr⟩ := ih (ha.run_eq ▸ h)
    exact ⟨log, .head ha hr⟩

/-- Discovery starts with the entries registered and queued, and advances to an empty queue. -/
theorem discover_ok {entries : List String} {d : Discovered}
    (h : (discover w charset entries).value = .ok d) :
    ∃ starts : List Location, entries.map w.canonical = starts.map .ok ∧
      ∃ log, Relation.ReflTransGen (Advance w charset)
        ⟨(Registry.empty.enterEach starts).1, (Registry.empty.enterEach starts).2, #[]⟩
        ⟨d.registry, [], log⟩ := by
  unfold discover at h
  split at h
  · cases h
  · rename_i r ids he
    obtain ⟨starts, hs, hp⟩ := enterAll_eq_enterEach he
    obtain ⟨rfl, rfl⟩ := Prod.ext_iff.mp hp
    refine ⟨starts, hs, ?_⟩
    cases hr : (run w charset ⟨(Registry.empty.enterEach starts).1, _, #[]⟩).value with
    | error e => rw [Logged.map, hr] at h; cases h
    | ok r =>
      rw [Logged.map, hr] at h
      cases h
      exact run_ok hr

/-- Where the entries and the advances are known, so is the discovery. -/
theorem discover_of_advances {entries : List String} {t : Registry} {ids : List SourceId}
    {log : Array Log.Line} (he : enterAll w .empty entries = .ok (r, ids))
    (h : Relation.ReflTransGen (Advance w charset) ⟨r, ids, #[]⟩ ⟨t, [], log⟩) :
    (discover w charset entries).value = .ok ⟨t, ids.eraseDups⟩ := by
  simp only [discover, he, Logged.map, runs_run_eq h, run_nil]
  rfl

end SourceBundle.Discovery
