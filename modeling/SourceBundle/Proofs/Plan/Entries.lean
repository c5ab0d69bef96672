import SourceBundle.Proofs.Discovery.Queue
import SourceBundle.Proofs.Plan.Emitted

/-! # Plans and their entries

Entries count only by the places that they lead to. The same places, in whatever order and however
often they are named, give the same files; named for the first time in the same order, they give
the same plan.
-/
namespace SourceBundle

variable {w : Workspace} {o : Options} {charset : Charset} {entries entries' : List String}
  {starts starts' : List Location} {l : Location} {r : Registry}

namespace Workspace

/-- Where the entries lead, one after the other; `none` stands for an entry that leads nowhere. -/
def places (w : Workspace) (entries : List String) : List (Option Location) :=
  entries.map fun entry => (w.canonical entry).toOption

theorem some_mem_places : some l ∈ w.places entries ↔ ∃ entry ∈ entries, w.canonical entry = .ok l := by
  rw [places, List.mem_map]
  refine exists_congr fun entry => and_congr_right fun _ => ?_
  cases w.canonical entry <;> simp [Except.toOption]

theorem none_not_mem_places :
    none ∉ w.places entries ↔ ∀ entry ∈ entries, ∃ l, w.canonical entry = .ok l := by
  simp only [places, List.mem_map, not_exists, not_and]
  refine forall_congr' fun entry => imp_congr_right fun _ => ?_
  cases w.canonical entry <;> simp [Except.toOption]

theorem places_eq_map_some (h : entries.map w.canonical = starts.map .ok) :
    w.places entries = starts.map some := by
  have hm := congrArg (List.map Except.toOption) h
  rwa [List.map_map, List.map_map] at hm

theorem eraseDups_of_places (hs : entries.map w.canonical = starts.map .ok)
    (hs' : entries'.map w.canonical = starts'.map .ok)
    (h : (w.places entries).eraseDups = (w.places entries').eraseDups) :
    starts.eraseDups = starts'.eraseDups := by
  have hsome : ∀ ls : List Location, (ls.map some).eraseDups = ls.eraseDups.map some :=
    fun ls => eraseDups_map fun _ _ _ _ => Option.some.inj
  rw [places_eq_map_some hs, places_eq_map_some hs', hsome, hsome] at h
  exact List.map_injective_iff.mpr (Option.some_injective _) h

/-! ## More entries, more files -/

theorem Reaches.mono (h : w.places entries ⊆ w.places entries')
    (hl : w.Reaches charset entries l) : w.Reaches charset entries' l := by
  obtain ⟨entry, he, start, hc, hr⟩ := hl
  obtain ⟨entry', he', hc'⟩ := some_mem_places.mp (h (some_mem_places.mpr ⟨entry, he, hc⟩))
  exact ⟨entry', he', start, hc', hr⟩

theorem Circular.mono (h : w.places entries ⊆ w.places entries')
    (hc : w.Circular charset entries) : w.Circular charset entries' := by
  obtain ⟨l, hl, hll⟩ := hc
  exact ⟨l, hl.mono h, hll⟩

theorem Used.mono (h : w.places entries ⊆ w.places entries')
    (hl : w.Used charset entries l) : w.Used charset entries' l := by
  rcases hl with hl | ⟨m, hm, hml⟩
  · exact Or.inl hl
  · exact Or.inr ⟨m, hm.mono h, hml⟩

theorem keeps_mono (h : w.places entries ⊆ w.places entries')
    (hl : w.keeps o entries l = true) : w.keeps o entries' l = true := by
  rw [keeps_iff] at hl ⊢
  exact fun ho => (hl ho).mono h

end Workspace

theorem Discovery.discover_isOk_of_subset (h : w.places entries ⊆ w.places entries')
    (hd : ∃ d, (discover w charset entries').value = .ok d) :
    ∃ d, (discover w charset entries).value = .ok d := by
  rw [discover_isOk_iff, ← Workspace.none_not_mem_places] at hd ⊢
  obtain ⟨hentries, hlegible⟩ := hd
  exact ⟨fun hn => hentries (h hn), fun l hl => hlegible l (hl.mono h)⟩

/-! ## What is found -/

/-- What discovery finds out about a file. -/
structure Finding where
  location : Location
  contents : Option (List Char)
  dependencies : List (Option Location)

def Workspace.finding (w : Workspace) (charset : Charset) (l : Location) : Finding where
  location := l
  contents := (w.parsed? charset l).map Directive.Parsed.contents
  dependencies := (w.targets charset l).map some

/-- The records of a registry, with locations in place of numbers. -/
def Registry.findings (r : Registry) : List Finding :=
  r.sources.map fun s => ⟨s.location, s.contents, s.dependencies.map r.location?⟩

theorem Discovery.Complete.findings_eq (h : Complete w charset starts r) :
    r.findings = r.locations.map (w.finding charset) := by
  rw [Registry.findings, Registry.locations, List.map_map]
  apply List.map_congr_left
  intro s hs
  have hf := h.faithful s hs
  rw [hf.contents_eq, hf.map_dependencies]
  rfl

namespace Plan

variable {p p' : Plan}

theorem plan_isOk_of_subset (h : w.places entries ⊆ w.places entries')
    (hp : ∃ p, (plan w o entries').value = .ok p) : ∃ p, (plan w o entries).value = .ok p := by
  rw [plan_isOk_iff] at hp ⊢
  exact ⟨Discovery.discover_isOk_of_subset h hp.1, fun hc => hp.2 (hc.mono h)⟩

theorem plan_eq_of_discover_eq
    (h : (discover w o.charset entries).value = (discover w o.charset entries').value) :
    (plan w o entries).value = (plan w o entries').value := by
  cases hd : (discover w o.charset entries').value with
  | error e => rw [plan_of_discover_error hd, plan_of_discover_error (h.trans hd)]
  | ok d => rw [plan_of_discover_ok hd, plan_of_discover_ok (h.trans hd)]

theorem findings_of_plan (h : (plan w o entries).value = .ok p) (f : Finding) :
    f ∈ p.registry.findings ↔ ∃ l, w.Reaches o.charset entries l ∧ w.finding o.charset l = f := by
  obtain ⟨starts, hs, hp⟩ := plan_planned h
  rw [hp.complete.findings_eq, List.mem_map]
  exact exists_congr fun l => and_congr_left' (hp.complete.mem_locations_iff hs)

/-- Entries that lead to the same places give a plan, or a cycle, together; the plans find the same
out about the same files and write the same files. If the places are also first mentioned in the
same order, the plans are equal. -/
theorem plan_places (w : Workspace) (o : Options) (entries entries' : List String)
    (h : ∀ place, place ∈ w.places entries ↔ place ∈ w.places entries') :
    ((∃ p, (plan w o entries).value = .ok p) ↔ ∃ p, (plan w o entries').value = .ok p) ∧
    ((∃ cycle, (plan w o entries).value = .error (.cycleDetected cycle)) ↔
      ∃ cycle, (plan w o entries').value = .error (.cycleDetected cycle)) ∧
    ∀ p p', (plan w o entries).value = .ok p → (plan w o entries').value = .ok p' →
      (∀ f, f ∈ p.registry.findings ↔ f ∈ p'.registry.findings) ∧
      (∀ l, l ∈ p.sources.map Source.location ↔ l ∈ p'.sources.map Source.location) ∧
      ((w.places entries).eraseDups = (w.places entries').eraseDups → p = p') := by
  have hto : w.places entries ⊆ w.places entries' := fun place => (h place).mp
  have hfrom : w.places entries' ⊆ w.places entries := fun place => (h place).mpr
  refine ⟨⟨plan_isOk_of_subset hfrom, plan_isOk_of_subset hto⟩, ?_, ?_⟩
  · rw [plan_isCycle_iff, plan_isCycle_iff]
    refine and_congr ?_ ⟨Workspace.Circular.mono hto, Workspace.Circular.mono hfrom⟩
    exact ⟨Discovery.discover_isOk_of_subset hfrom, Discovery.discover_isOk_of_subset hto⟩
  · intro p p' hp hp'
    obtain ⟨starts, hs, hplan⟩ := plan_planned hp
    obtain ⟨starts', hs', hplan'⟩ := plan_planned hp'
    have hreach : ∀ l, w.Reaches o.charset entries l ↔ w.Reaches o.charset entries' l :=
      fun l => ⟨Workspace.Reaches.mono hto, Workspace.Reaches.mono hfrom⟩
    have hkeeps : ∀ l, w.keeps o entries l = true ↔ w.keeps o entries' l = true :=
      fun l => ⟨Workspace.keeps_mono hto, Workspace.keeps_mono hfrom⟩
    refine ⟨fun f => ?_, fun l => ?_, fun hfirst => ?_⟩
    · simp only [findings_of_plan hp, findings_of_plan hp', hreach]
    · rw [hplan.mem_sources_iff hs, hplan'.mem_sources_iff hs', hreach, hkeeps]
    · have hstarts := Workspace.eraseDups_of_places hs hs' hfirst
      have heq := plan_eq_of_discover_eq (o := o) (Discovery.discover_congr hs hs' hstarts)
      rw [hp, hp'] at heq
      exact Except.ok.inj heq

theorem letters_respelled :
    (∀ place, place ∈ Discovery.letters.places ["a"] ↔
      place ∈ Discovery.letters.places ["./a", "a"]) ∧
    (plan Discovery.letters {} ["./a", "a"]).value = .ok lettersPlan := by
  have hone : Discovery.letters.places ["a"] = [some ["a"]] := by cbv
  have htwo : Discovery.letters.places ["./a", "a"] = [some ["a"], some ["a"]] := by cbv
  have hplaces : ∀ place, place ∈ Discovery.letters.places ["a"] ↔
      place ∈ Discovery.letters.places ["./a", "a"] := by
    intro place
    simp [hone, htwo]
  have hfirst : (Discovery.letters.places ["a"]).eraseDups =
      (Discovery.letters.places ["./a", "a"]).eraseDups := by
    rw [hone, htwo]
    decide
  obtain ⟨hok, -, hplans⟩ := plan_places Discovery.letters {} ["a"] ["./a", "a"] hplaces
  obtain ⟨p, hp⟩ := hok.mp ⟨lettersPlan, plan_letters⟩
  obtain rfl := (hplans lettersPlan p plan_letters hp).2.2 hfirst
  exact ⟨hplaces, hp⟩

end Plan

end SourceBundle
