import SourceBundle.Proofs.Discovery.Closure
import SourceBundle.Proofs.FileSystem.Create

/-! # When discovery succeeds

Discovery fails at an entry that leads nowhere and at a file that cannot be read, leaves a directive
open or names what is no file. With none of these within reach it succeeds.
-/
namespace SourceBundle

/-- The file can be read, its directives are closed, and each of them names a file. -/
def Workspace.Legible (w : Workspace) (charset : Charset) (l : Location) : Prop :=
  ∃ octets parsed, w.files.read l = .ok octets ∧
    Directive.parse l.text (charset.decode octets) = .ok parsed ∧
    ∀ reference ∈ parsed.requires, w.isFile (Directive.resolve l.parent.text reference) = true

theorem Workspace.canonical_of_isFile {w : Workspace} {path : String} (h : w.isFile path = true) :
    ∃ l, w.canonical path = .ok l := by
  obtain ⟨_, he⟩ := isFile_iff.mp h
  obtain ⟨-, l, hc, -⟩ := entry?_eq_some_iff.mp he
  exact ⟨l, hc⟩

namespace Discovery

variable {w : Workspace} {charset : Charset} {r : Registry} {source : Source} {id : SourceId}
  {starts : List Location} {entries : List String} {s t : State}

theorem get_of_isFile {path : String} (h : w.isFile path = true) :
    ∃ p, r.get w path = .ok p := by
  obtain ⟨l, hl⟩ := Workspace.canonical_of_isFile h
  exact ⟨r.enter l, by rw [Registry.get, hl]⟩

theorem link_isOk_iff {references : List String} :
    (∃ p, (link w source r references).value = .ok p) ↔
      ∀ reference ∈ references, w.isFile (Directive.resolve source.directory reference) = true := by
  induction references generalizing r with
  | nil => simp [link]
  | cons reference references ih =>
    rw [List.forall_mem_cons]
    simp only [link]
    by_cases hf : w.isFile (Directive.resolve source.directory reference) = true
    · obtain ⟨⟨t, id⟩, hget⟩ := get_of_isFile (r := r) hf
      rw [if_pos hf, hget, ← ih (r := t)]
      simp only [hf, true_and]
      cases (link w source t references).value with
      | error e => simp [Except.map]
      | ok p => simp [Except.map]
    · rw [if_neg hf]
      simp [hf]

theorem visit_isOk_iff :
    (∃ p, (visit w charset r id source).value = .ok p) ↔ w.Legible charset source.location := by
  constructor
  · rintro ⟨p, h⟩
    simp only [visit] at h
    split at h
    · cases h
    · rename_i octets hread
      split at h
      · cases h
      · rename_i parsed hparse
        split at h
        · cases h
        · rename_i t ids hlink
          exact ⟨octets, parsed, hread, hparse, link_isOk_iff.mp ⟨_, hlink⟩⟩
  · rintro ⟨octets, parsed, hread, hparse, hfiles⟩
    have hlinked : ∃ p, (link w source r parsed.requires).value = .ok p := link_isOk_iff.mpr hfiles
    obtain ⟨⟨t, ids⟩, hlink⟩ := hlinked
    have hparse' : Directive.parse source.path (charset.decode octets) = .ok parsed := hparse
    simp only [visit, hread, hparse', hlink]
    exact ⟨_, rfl⟩

/-! ## Runs that succeed -/

theorem run_isOk (hl : ∀ start ∈ starts, ∀ l, Relation.ReflTransGen (w.Requires charset) start l →
    w.Legible charset l) (hs : Sound w charset starts s) :
    ∃ r, (run w charset s).value = .ok r := by
  induction s using run_induction with
  | done r log => exact ⟨r, by rw [run_nil]⟩
  | stuck r id rest log source e hsrc hu he =>
    have hm : source.location ∈ r.locations := List.mem_map_of_mem (List.mem_of_getElem? hsrc)
    obtain ⟨start, hstart, hreach⟩ := hs.reached source.location hm
    obtain ⟨p, hp⟩ := visit_isOk_iff.mpr (hl start hstart source.location hreach)
    rw [he] at hp
    cases hp
  | advance s t ha ih =>
    rw [ha.run_eq]
    exact ih (ha.sound hs)

/-- Every file that has been read could be. -/
def ReadLegible (w : Workspace) (charset : Charset) (s : State) : Prop :=
  ∀ source ∈ s.registry.sources, source.isRead = true → w.Legible charset source.location

theorem Advance.legible (h : Advance w charset s t) (hs : ReadLegible w charset s) :
    ReadLegible w charset t := by
  cases h with
  | skip r id rest log h => exact hs
  | read r id rest log source t queued hsrc hu hv =>
    have hd := visited_of_ok hsrc hu hv
    intro x hm hx
    obtain ⟨i, hi⟩ := List.mem_iff_getElem?.mp hm
    by_cases hid : i = id
    · subst hid
      have hold : r.location? i = some source.location := by rw [Registry.location?_eq, hsrc]; rfl
      have hnew : t.location? i = some x.location := by
        rw [Registry.location?_eq, Registry.source?, hi]
        rfl
      rw [Registry.location?_of_prefix ⟨_, hd.locations.symm⟩ hold] at hnew
      rw [← Option.some.inj hnew]
      exact visit_isOk_iff.mp ⟨_, hv⟩
    · rcases hd.others i x hid hi with ho | ⟨hn, -⟩
      · exact hs x (List.mem_of_getElem? ho) hx
      · rw [hn] at hx
        cases hx

theorem runs_legible (h : Relation.ReflTransGen (Advance w charset) s t)
    (hs : ReadLegible w charset s) : ReadLegible w charset t := by
  induction h with
  | refl => exact hs
  | tail _ ha ih => exact ha.legible ih

theorem enterAll_isOk (h : ∀ entry ∈ entries, ∃ l, w.canonical entry = .ok l) :
    ∃ p, enterAll w r entries = .ok p := by
  induction entries generalizing r with
  | nil => exact ⟨_, rfl⟩
  | cons entry entries ih =>
    rw [List.forall_mem_cons] at h
    obtain ⟨⟨l, hl⟩, hrest⟩ := h
    have hget : r.get w entry = .ok (r.enter l) := by rw [Registry.get, hl]
    obtain ⟨p, hp⟩ := ih hrest (r := (r.enter l).1)
    simp only [enterAll, hget, hp]
    exact ⟨_, rfl⟩

/-- Discovery succeeds if and only if every entry leads to a place and every file within reach is
legible. -/
theorem discover_isOk_iff : (∃ d, (discover w charset entries).value = .ok d) ↔
    (∀ entry ∈ entries, ∃ l, w.canonical entry = .ok l) ∧
      ∀ l, w.Reaches charset entries l → w.Legible charset l := by
  constructor
  · rintro ⟨d, h⟩
    obtain ⟨starts, hs, log, ha⟩ := discover_ok h
    have hc := (runs_sound ha (sound_begin w charset starts)).complete
    have hnone : ReadLegible w charset
        ⟨(Registry.empty.enterEach starts).1, (Registry.empty.enterEach starts).2, #[]⟩ := by
      intro source hm hr
      obtain ⟨i, hi⟩ := List.mem_iff_getElem?.mp hm
      rcases Registry.source?_of_enterEach hi with ho | ⟨hu, -, -⟩
      · cases ho
      · rw [hu] at hr
        cases hr
    refine ⟨Workspace.exists_canonical hs, fun l hl => ?_⟩
    obtain ⟨source, hm, rfl⟩ := List.mem_map.mp ((hc.mem_locations_iff hs).mpr hl)
    obtain ⟨_, _, _, -, -, hcontents, -⟩ := hc.faithful source hm
    exact runs_legible ha hnone source hm (by rw [Source.isRead, hcontents]; rfl)
  · rintro ⟨hentries, hlegible⟩
    obtain ⟨p, hp⟩ := enterAll_isOk (r := .empty) hentries
    obtain ⟨starts, hs, rfl⟩ := enterAll_eq_enterEach hp
    have hrun : ∃ r, (run w charset
        ⟨(Registry.empty.enterEach starts).1, (Registry.empty.enterEach starts).2, #[]⟩).value =
          .ok r := by
      refine run_isOk (fun start hstart l hl => hlegible l ?_) (sound_begin w charset starts)
      obtain ⟨entry, he, hc⟩ := (Workspace.mem_iff_canonical hs).mp hstart
      exact ⟨entry, he, start, hc, hl⟩
    obtain ⟨r, hr⟩ := hrun
    refine ⟨⟨r, (Registry.empty.enterEach starts).2.eraseDups⟩, ?_⟩
    simp only [discover, hp, Logged.map, hr, Except.map]

end Discovery

end SourceBundle
