import SourceBundle.Directive
import SourceBundle.Log
import SourceBundle.Options
import SourceBundle.Registry

/-! # Discovery

Entry files are entered first, all of them, and queued. Then the file at the front of the queue
is read, unless it has been read before: its directives are taken out, each file they name is
entered, and those not read yet are queued. Every such step reads one more file of a finite
file system, so the queue runs dry.
-/
namespace SourceBundle.Discovery

open Log (Line progress)

/-- Keeps the entries that name a file; the rest is only reported. -/
def filterEntries (w : Workspace) (entries : List String) : Logged (List String) :=
  ⟨entries.filter (w.isFile ·), entries.map fun entry =>
    if w.isFile entry then
      let text := match w.canonical entry with
        | .ok l => l.text
        | .error _ => entry
      progress .discovery ("Adding file '" ++ text ++ "'")
    else ⟨.warn, .discovery, "Couldn't find file '" ++ entry ++ "'", false⟩⟩

def link (w : Workspace) (source : Source) (r : Registry) :
    List String → Logged (Except Error (Registry × List SourceId))
  | [] => ⟨.ok (r, []), []⟩
  | reference :: rest =>
    let line := progress .discovery ("... has dependency on " ++ reference)
    let target := Directive.resolve source.directory reference
    if w.isFile target then
      match r.get w target with
      | .error e => ⟨.error e, [line]⟩
      | .ok (r, id) =>
        let linked := link w source r rest
        ⟨linked.value.map fun (r, ids) => (r, id :: ids), line :: linked.log⟩
    else ⟨.error (.missingDependency target source.path), [line]⟩

/-- Reads a file and sets its record. With the registry come the files to be queued. -/
def visit (w : Workspace) (charset : Charset) (r : Registry) (id : SourceId) (source : Source) :
    Logged (Except Error (Registry × List SourceId)) :=
  let line := progress .discovery ("Processing file '" ++ source.path ++ "'")
  match w.files.read source.location with
  | .error fault => ⟨.error (.read source.path fault), [line]⟩
  | .ok octets =>
    match Directive.parse source.path (charset.decode octets) with
    | .error e => ⟨.error e, [line]⟩
    | .ok parsed =>
      let linked := link w source r parsed.requires
      match linked.value with
      | .error e => ⟨.error e, line :: linked.log⟩
      | .ok (r, ids) =>
        let last := if ids.isEmpty then [progress .discovery "... no dependencies found."] else []
        ⟨.ok ((r.complete id parsed.contents ids).1, ids.filter (!r.isRead ·)),
          line :: linked.log ++ last⟩

structure State where
  registry : Registry
  queue : List SourceId
  log : Array Line := #[]

/-! ## Reading goes forward -/

def readAt (r : Registry) (l : Location) : Bool :=
  r.sources.any fun s => s.location = l && s.isRead

/-- How many entries of the file system have not been read. -/
def unread (fs : FileSystem) (r : Registry) : Nat := fs.entries.countP fun e => !readAt r e.1

theorem enter_sources (r : Registry) (l : Location) :
    (r.enter l).1.sources = r.sources ∨
      (r.enter l).1.sources = r.sources ++ [{ location := l }] := by
  unfold Registry.enter
  split
  · exact Or.inl rfl
  · exact Or.inr rfl

theorem readAt_enter (r : Registry) (l m : Location) : readAt (r.enter l).1 m = readAt r m := by
  rcases enter_sources r l with h | h <;> simp [readAt, h, Source.isRead]

theorem source?_enter {r : Registry} {l : Location} {id : SourceId} {s : Source}
    (h : r.source? id = some s) : (r.enter l).1.source? id = some s := by
  unfold Registry.source? at *
  rcases enter_sources r l with hs | hs
  · rw [hs]; exact h
  · rw [hs, List.getElem?_append_left (List.getElem?_eq_some_iff.mp h).1]; exact h

theorem get_ok {r t : Registry} {w : Workspace} {path : String} {id : SourceId}
    (h : r.get w path = .ok (t, id)) : ∃ l, w.canonical path = .ok l ∧ r.enter l = (t, id) := by
  unfold Registry.get at h
  split at h
  · rename_i l hl
    exact ⟨l, hl, by simpa using h⟩
  · cases h

theorem link_ok {w : Workspace} {source : Source} {references : List String} {r t : Registry}
    {ids : List SourceId} (h : (link w source r references).value = .ok (t, ids)) :
    (∀ m, readAt t m = readAt r m) ∧
      ∀ id s, r.source? id = some s → t.source? id = some s := by
  induction references generalizing r t ids with
  | nil =>
    simp only [link, Except.ok.injEq, Prod.mk.injEq] at h
    obtain ⟨rfl, _⟩ := h
    exact ⟨fun _ => rfl, fun _ _ hs => hs⟩
  | cons reference rest ih =>
    simp only [link] at h
    split at h
    · split at h
      · cases h
      · rename_i r' id hget
        obtain ⟨l, _, hl⟩ := get_ok hget
        have he : (r.enter l).1 = r' := by rw [hl]
        cases hv : (link w source r' rest).value with
        | error e => rw [hv] at h; cases h
        | ok p =>
          obtain ⟨t', ids'⟩ := p
          rw [hv] at h
          simp only [Except.map, Except.ok.injEq, Prod.mk.injEq] at h
          obtain ⟨rfl, _⟩ := h
          obtain ⟨hr, hs⟩ := ih hv
          refine ⟨fun m => ?_, fun i s hi => hs i s ?_⟩
          · rw [hr m, ← he, readAt_enter]
          · rw [← he]; exact source?_enter hi
    · cases h

theorem readAt_complete {r : Registry} {id : SourceId} {s : Source} (h : r.source? id = some s)
    (contents : List Char) (ids : List SourceId) :
    (∀ m, readAt r m = true → readAt (r.complete id contents ids).1 m = true) ∧
      readAt (r.complete id contents ids).1 s.location = true := by
  constructor
  · intro m hm
    simp only [readAt, List.any_eq_true, Bool.and_eq_true, decide_eq_true_eq] at hm ⊢
    obtain ⟨x, hx, hl, hr⟩ := hm
    obtain ⟨i, hi⟩ := List.mem_iff_getElem?.mp hx
    refine ⟨if id = i then Registry.record x contents ids else x,
      List.mem_iff_getElem?.mpr ⟨i, ?_⟩, ?_⟩
    · simp only [Registry.complete, List.getElem?_modify, hi, Option.map_eq_map, Option.map_some]
    · split
      · rw [Registry.record_location]
        simp [hl, Registry.record, hr]
      · exact ⟨hl, hr⟩
  · simp only [readAt, List.any_eq_true, Bool.and_eq_true, decide_eq_true_eq]
    refine ⟨Registry.record s contents ids, List.mem_iff_getElem?.mpr ⟨id, ?_⟩, ?_, ?_⟩
    · unfold Registry.source? at h
      simp [Registry.complete, h]
    · exact Registry.record_location s contents ids
    · unfold Registry.record
      split
      · assumption
      · rfl

/-- A location that an unread record has is not read at all: no other record has it. -/
theorem readAt_eq_false {r : Registry} {id : SourceId} {s : Source} (h : r.source? id = some s)
    (hs : s.isRead = false) : readAt r s.location = false := by
  rw [Bool.eq_false_iff]
  intro hr
  simp only [readAt, List.any_eq_true, Bool.and_eq_true, decide_eq_true_eq] at hr
  obtain ⟨x, hx, hl, hread⟩ := hr
  obtain ⟨i, hi⟩ := List.mem_iff_getElem?.mp hx
  unfold Registry.source? at h
  have hd := r.distinct
  have hx' : (r.sources.map Source.location)[i]? = some s.location := by simp [hi, hl]
  have hs' : (r.sources.map Source.location)[id]? = some s.location := by simp [h]
  have hlt := (List.getElem?_eq_some_iff.mp hx').1
  have := (List.getElem?_inj hlt hd).mp (hx'.trans hs'.symm)
  subst this
  rw [h] at hi
  cases hi
  rw [hs] at hread
  cases hread

theorem mem_of_read {fs : FileSystem} {l : Location} {octets : List UInt8}
    (h : fs.read l = .ok octets) : ∃ e ∈ fs.entries, e.1 = l := by
  unfold FileSystem.read FileSystem.find? at h
  by_cases hl : l = []
  · simp [hl] at h
  · simp only [hl, if_false] at h
    cases he : fs.entries.lookup l with
    | none => simp [he] at h
    | some e =>
      obtain ⟨before, after, hb, _⟩ := List.lookup_eq_some_iff.mp he
      exact ⟨(l, e), by simp [hb], rfl⟩

theorem countP_lt {α : Type} {p q : α → Bool} {xs : List α} (h : ∀ x ∈ xs, p x = true → q x = true)
    {x : α} (hx : x ∈ xs) (hp : p x = false) (hq : q x = true) :
    xs.countP p < xs.countP q := by
  induction xs with
  | nil => cases hx
  | cons y ys ih =>
    have hle : ys.countP p ≤ ys.countP q :=
      List.countP_mono_left fun z hz => h z (List.mem_cons_of_mem y hz)
    rcases List.mem_cons.mp hx with rfl | hmem
    · rw [List.countP_cons_of_neg (by simp [hp]), List.countP_cons_of_pos hq]
      omega
    · have := ih (fun z hz => h z (List.mem_cons_of_mem y hz)) hmem
      have hy := h y List.mem_cons_self
      simp only [List.countP_cons]
      cases hpy : p y
      · simp only [Bool.false_eq_true, if_false]; omega
      · simp only [hy hpy, if_true]; omega

theorem unread_visit {w : Workspace} {charset : Charset} {r t : Registry} {id : SourceId}
    {source : Source} {ids : List SourceId} (hs : r.source? id = some source)
    (hu : source.isRead = false) (h : (visit w charset r id source).value = .ok (t, ids)) :
    unread w.files t < unread w.files r := by
  simp only [visit] at h
  split at h
  · cases h
  · rename_i octets hread
    split at h
    · cases h
    · rename_i parsed _
      split at h
      · cases h
      · rename_i r' ids' hlink
        simp only [Except.ok.injEq, Prod.mk.injEq] at h
        obtain ⟨rfl, _⟩ := h
        obtain ⟨hr, hk⟩ := link_ok hlink
        obtain ⟨hm, ha⟩ := readAt_complete (hk id source hs) parsed.contents ids'
        obtain ⟨e, he, hl⟩ := mem_of_read hread
        refine countP_lt (x := e) (fun x _ hx => ?_) he ?_ ?_
        · cases hx' : readAt r x.1
          · rfl
          · rw [hm x.1 (by rw [hr]; exact hx')] at hx
            cases hx
        · rw [hl, ha]; rfl
        · rw [hl, readAt_eq_false hs hu]; rfl

/-! ## The run -/

def run (w : Workspace) (charset : Charset) (s : State) : Logged (Except Error Registry) :=
  match _hq : s.queue with
  | [] => ⟨.ok s.registry, s.log.toList⟩
  | id :: rest =>
    match _hs : s.registry.source? id with
    | none => run w charset { s with queue := rest }
    | some source =>
      if _hr : source.isRead then run w charset { s with queue := rest }
      else
        match _hv : (visit w charset s.registry id source).value with
        | .error e => ⟨.error e, s.log.toList ++ (visit w charset s.registry id source).log⟩
        | .ok (r, ids) =>
          run w charset ⟨r, rest ++ ids, s.log ++ (visit w charset s.registry id source).log⟩
termination_by (unread w.files s.registry, s.queue.length)
decreasing_by
  · simp [Prod.lex_def, _hq]
  · simp [Prod.lex_def, _hq]
  · have := unread_visit _hs (by simpa using _hr) _hv
    simp [Prod.lex_def, this]

/-- Enters the entries in order: the registry and their numbers, repeats included. -/
def enterAll (w : Workspace) (r : Registry) :
    List String → Except Error (Registry × List SourceId)
  | [] => .ok (r, [])
  | entry :: rest =>
    match r.get w entry with
    | .error e => .error e
    | .ok (r, id) => (enterAll w r rest).map fun (r, ids) => (r, id :: ids)

end Discovery

/-- What discovery leaves: every file within reach, read, and the entry files without
repeats. -/
structure Discovered where
  registry : Registry
  entries : List SourceId
deriving DecidableEq, Repr, Inhabited

def discover (w : Workspace) (charset : Charset) (entries : List String) :
    Logged (Except Error Discovered) :=
  match Discovery.enterAll w .empty entries with
  | .error e => ⟨.error e, []⟩
  | .ok (r, ids) =>
    (Discovery.run w charset { registry := r, queue := ids }).map fun result =>
      result.map fun registry => ⟨registry, ids.eraseDups⟩

end SourceBundle
