import Mathlib
import SourceBundle.Proofs.Discovery.Run

/-! # Discovery finds the closure

Between two advances every record is either faithful or still queued, and every record lies
within reach of the entries. When the queue is empty nothing is missing.
-/
namespace SourceBundle.Discovery

variable {w : Workspace} {charset : Charset} {starts : List Location} {s t : State}

/-- What holds between two advances of a run from `starts`. -/
structure Sound (w : Workspace) (charset : Charset) (starts : List Location) (s : State) :
    Prop where
  queued : ∀ id source, s.registry.source? id = some source → source.isRead = false →
    id ∈ s.queue
  faithful : ∀ source ∈ s.registry.sources, source.isRead = true →
    source.Faithful w charset s.registry
  entered : starts.eraseDups <+: s.registry.locations
  reached : ∀ l ∈ s.registry.locations, ∃ start ∈ starts,
    Relation.ReflTransGen (w.Requires charset) start l

theorem sound_begin (w : Workspace) (charset : Charset) (starts : List Location) :
    Sound w charset starts
      ⟨(Registry.empty.enterEach starts).1, (Registry.empty.enterEach starts).2, #[]⟩ := by
  have hl : (Registry.empty.enterEach starts).1.locations = starts.eraseDups := by
    rw [Registry.locations_enterEach]
    simp [Registry.fresh, Registry.locations, Registry.empty]
  have hnew : ∀ i source, (Registry.empty.enterEach starts).1.source? i = some source →
      source.isRead = false ∧ i ∈ (Registry.empty.enterEach starts).2 := by
    intro i source hi
    rcases Registry.source?_of_enterEach hi with ho | ⟨hu, -, hm⟩
    · cases ho
    · exact ⟨hu, hm⟩
  refine ⟨fun i source hi _ => (hnew i source hi).2, ?_, hl ▸ List.prefix_refl _, ?_⟩
  · intro source hm hr
    obtain ⟨i, hi⟩ := List.mem_iff_getElem?.mp hm
    rw [(hnew i source hi).1] at hr
    cases hr
  · intro l hm
    exact ⟨l, List.mem_eraseDups.mp (hl ▸ hm), .refl⟩

theorem Advance.sound (h : Advance w charset s t) (hs : Sound w charset starts s) :
    Sound w charset starts t := by
  cases h with
  | skip r id rest log h =>
    refine ⟨?_, hs.faithful, hs.entered, hs.reached⟩
    intro i source hi hu
    rcases List.mem_cons.mp (hs.queued i source hi hu) with rfl | hm
    · rw [h source hi] at hu
      cases hu
    · exact hm
  | read r id rest log source t queued hsrc hu hv =>
    have hd := visited_of_ok hsrc hu hv
    have hpre : r.locations <+: t.locations := ⟨_, hd.locations.symm⟩
    refine ⟨?_, ?_, hs.entered.trans hpre, ?_⟩
    · intro i x hi hx
      by_cases hid : i = id
      · subst hid
        rw [(hd.record x hi).1] at hx
        cases hx
      · rcases hd.others i x hid hi with ho | ⟨-, hm⟩
        · have hm := (List.mem_cons.mp (hs.queued i x ho hx)).resolve_left hid
          exact List.mem_append_left _ hm
        · exact List.mem_append_right _ hm
    · intro x hm hx
      obtain ⟨i, hi⟩ := List.mem_iff_getElem?.mp hm
      by_cases hid : i = id
      · subst hid
        exact (hd.record x hi).2
      · rcases hd.others i x hid hi with ho | ⟨hn, -⟩
        · have hf := hs.faithful x (List.mem_of_getElem? ho) hx
          exact hf.mono fun _ _ => Registry.location?_of_prefix hpre
        · rw [hn] at hx
          cases hx
    · intro l hl
      rw [hd.locations] at hl
      rcases List.mem_append.mp hl with hl | hl
      · exact hs.reached l hl
      · have hsl : source.location ∈ r.locations :=
          List.mem_map_of_mem (List.mem_of_getElem? hsrc)
        obtain ⟨start, hstart, hr⟩ := hs.reached source.location hsl
        exact ⟨start, hstart, hr.tail (Registry.mem_fresh.mp hl).1⟩

theorem runs_sound (h : Relation.ReflTransGen (Advance w charset) s t)
    (hs : Sound w charset starts s) : Sound w charset starts t := by
  induction h with
  | refl => exact hs
  | tail _ ha ih => exact ha.sound ih

/-! ## The registry at the end -/

/-- What holds of the registry when the queue has run empty. -/
structure Complete (w : Workspace) (charset : Charset) (starts : List Location) (r : Registry) :
    Prop where
  faithful : ∀ source ∈ r.sources, source.Faithful w charset r
  entered : starts.eraseDups <+: r.locations
  reached : ∀ l ∈ r.locations, ∃ start ∈ starts,
    Relation.ReflTransGen (w.Requires charset) start l

theorem Sound.complete {r : Registry} {log : Array Log.Line}
    (h : Sound w charset starts ⟨r, [], log⟩) : Complete w charset starts r := by
  refine ⟨?_, h.entered, h.reached⟩
  intro source hm
  obtain ⟨i, hi⟩ := List.mem_iff_getElem?.mp hm
  cases hu : source.isRead with
  | true => exact h.faithful source hm hu
  | false => cases h.queued i source hi hu

theorem discover_complete {entries : List String} {d : Discovered}
    (h : (discover w charset entries).value = .ok d) :
    ∃ starts : List Location, entries.map w.canonical = starts.map .ok ∧
      Complete w charset starts d.registry := by
  obtain ⟨starts, hs, log, ha⟩ := discover_ok h
  exact ⟨starts, hs, (runs_sound ha (sound_begin w charset starts)).complete⟩

namespace Complete

variable {r : Registry} {i : SourceId} {l m : Location}

theorem map_dependencies (h : Complete w charset starts r) (hi : r.location? i = some l) :
    (r.dependencies i).map r.location? = (w.targets charset l).map some := by
  rw [Registry.location?_eq] at hi
  obtain ⟨source, hs, rfl⟩ := Option.map_eq_some_iff.mp hi
  have hd : r.dependencies i = source.dependencies := by rw [Registry.dependencies, hs]; rfl
  rw [hd]
  exact (h.faithful source (List.mem_of_getElem? hs)).map_dependencies

theorem exists_dependency (h : Complete w charset starts r) (hi : r.location? i = some l)
    (hm : w.Requires charset l m) : ∃ j ∈ r.dependencies i, r.location? j = some m := by
  have hmem : some m ∈ (r.dependencies i).map r.location? :=
    h.map_dependencies hi ▸ List.mem_map_of_mem hm
  exact List.mem_map.mp hmem

/-- Whatever a registered file leads to is registered too. -/
theorem mem_of_requires (h : Complete w charset starts r) (hl : l ∈ r.locations)
    (hm : w.Requires charset l m) : m ∈ r.locations := by
  obtain ⟨i, hi⟩ := List.mem_iff_getElem?.mp hl
  obtain ⟨j, -, hj⟩ := h.exists_dependency hi hm
  exact List.mem_of_getElem? hj

theorem mem_locations_iff {entries : List String} (h : Complete w charset starts r)
    (hs : entries.map w.canonical = starts.map .ok) :
    l ∈ r.locations ↔ w.Reaches charset entries l := by
  constructor
  · intro hl
    obtain ⟨start, hm, hr⟩ := h.reached l hl
    obtain ⟨entry, he, hc⟩ := (Workspace.mem_iff_canonical hs).mp hm
    exact ⟨entry, he, start, hc, hr⟩
  · rintro ⟨entry, he, start, hc, hr⟩
    induction hr with
    | refl =>
      have hm := (Workspace.mem_iff_canonical hs).mpr ⟨entry, he, hc⟩
      exact h.entered.subset (List.mem_eraseDups.mpr hm)
    | tail _ hm ih => exact h.mem_of_requires ih hm

end Complete

/-- Discovery finds the least set of files that holds the entries and is closed under the
directives, and every record says what its file says. -/
theorem discover_finds_closure (w : Workspace) (charset : Charset) (entries : List String)
    (d : Discovered) (h : (discover w charset entries).value = .ok d) :
    (∀ entry ∈ entries, ∃ l, w.canonical entry = .ok l) ∧
      IsLeast {files | w.Covers charset entries files} {l | l ∈ d.registry.locations} ∧
      ∀ source ∈ d.registry.sources, source.Faithful w charset d.registry := by
  obtain ⟨starts, hs, hc⟩ := discover_complete h
  refine ⟨?_, ?_, hc.faithful⟩
  · intro entry he
    have hm : w.canonical entry ∈ starts.map .ok := hs ▸ List.mem_map_of_mem he
    obtain ⟨l, -, hl⟩ := List.mem_map.mp hm
    exact ⟨l, hl.symm⟩
  · have hr : {l | l ∈ d.registry.locations} = {l | w.Reaches charset entries l} := by
      ext l
      exact hc.mem_locations_iff hs
    rw [hr]
    exact w.isLeast_reaches charset entries

/-! ## A run over three files -/

/-- The first file names both others and itself, the second names the third. -/
def letters : Workspace where
  current := []
  files := ⟨[
    (["a"], .file (Text.Utf8.encode "/*requires c*//*requires b*//*requires a*/x".toList)),
    (["b"], .file (Text.Utf8.encode "/*requires c*/y".toList)),
    (["c"], .file (Text.Utf8.encode "z".toList))]⟩

def recordA : Source := ⟨["a"], some ['x'], [1, 2, 0]⟩

def recordB : Source := ⟨["b"], some ['y'], [1]⟩

def recordC : Source := ⟨["c"], some ['z'], []⟩

def lettersFound : Discovered := ⟨⟨[recordA, recordC, recordB], by decide⟩, [0]⟩

theorem discover_letters : (discover letters .utf8 ["a"]).value = .ok lettersFound := by
  have hentries : enterAll letters .empty ["a"] =
      .ok (⟨[{ location := ["a"] }], by decide⟩, [0]) := by
    cbv
  have ha : (visit letters .utf8 ⟨[{ location := ["a"] }], by decide⟩
      0 { location := ["a"] }).value =
        .ok (⟨[recordA, { location := ["c"] }, { location := ["b"] }], by decide⟩, [1, 2, 0]) := by
    cbv
  have hc : (visit letters .utf8
      ⟨[recordA, { location := ["c"] }, { location := ["b"] }], by decide⟩
      1 { location := ["c"] }).value =
        .ok (⟨[recordA, recordC, { location := ["b"] }], by decide⟩, []) := by
    cbv
  have hb : (visit letters .utf8 ⟨[recordA, recordC, { location := ["b"] }], by decide⟩
      2 { location := ["b"] }).value = .ok (lettersFound.registry, []) := by
    cbv
  have hskip : ∀ source, lettersFound.registry.source? 0 = some source → source.isRead = true := by
    rintro source ⟨⟩
    rfl
  exact discover_of_advances hentries <| .head (.read _ 0 [] _ _ _ _ rfl rfl ha) <|
    .head (.read _ 1 [2, 0] _ _ _ _ rfl rfl hc) <|
    .head (.read _ 2 [0] _ _ _ _ rfl rfl hb) <| .single (.skip _ 0 [] _ hskip)

theorem letters_closure : (discover letters .utf8 ["a"]).value = .ok lettersFound ∧
    (∀ entry ∈ ["a"], ∃ l, letters.canonical entry = .ok l) ∧
    IsLeast {files | letters.Covers .utf8 ["a"] files} {l | l ∈ [["a"], ["c"], ["b"]]} ∧
    ∀ source ∈ [recordA, recordC, recordB], source.Faithful letters .utf8 lettersFound.registry :=
  ⟨discover_letters, discover_finds_closure letters .utf8 ["a"] lettersFound discover_letters⟩

end SourceBundle.Discovery
