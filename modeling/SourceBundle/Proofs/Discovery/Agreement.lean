import SourceBundle.Proofs.Discovery.Closure

/-! # What discovery depends on

Discovery looks at the entries, at the files within reach of them and at what these name. Two
workspaces that agree on that much are told apart by nothing that it returns or records.
-/
namespace SourceBundle

variable {w v : Workspace} {charset : Charset} {entries : List String} {path : String}

namespace Workspace

/-- A path leads to the same place in both, and to a file in both or in neither. -/
def AgreesOn (w v : Workspace) (path : String) : Prop :=
  w.canonical path = v.canonical path ∧ w.isFile path = v.isFile path

/-- Two workspaces between which discovery cannot tell. -/
structure Agrees (w v : Workspace) (charset : Charset) (entries : List String) : Prop where
  starts : ∀ entry ∈ entries, w.canonical entry = v.canonical entry
  files : ∀ l, w.Reaches charset entries l → w.files.read l = v.files.read l
  references : ∀ l, w.Reaches charset entries l → ∀ parsed, w.parsed? charset l = some parsed →
    ∀ reference ∈ parsed.requires, w.AgreesOn v (Directive.resolve l.parent.text reference)

end Workspace

namespace Discovery

variable {r : Registry} {id : SourceId} {source : Source} {starts : List Location} {s t : State}

theorem get_congr (h : w.canonical path = v.canonical path) (r : Registry) :
    r.get w path = r.get v path := by
  rw [Registry.get, Registry.get, h]

theorem enterAll_congr (h : ∀ entry ∈ entries, w.canonical entry = v.canonical entry)
    (r : Registry) : enterAll w r entries = enterAll v r entries := by
  induction entries generalizing r with
  | nil => rfl
  | cons entry entries ih =>
    obtain ⟨hentry, hentries⟩ := List.forall_mem_cons.mp h
    simp only [enterAll, get_congr hentry, ih hentries]

theorem link_congr {references : List String}
    (h : ∀ reference ∈ references, w.AgreesOn v (Directive.resolve source.directory reference))
    (r : Registry) : link w source r references = link v source r references := by
  induction references generalizing r with
  | nil => rfl
  | cons reference references ih =>
    obtain ⟨⟨hcanonical, hfile⟩, hreferences⟩ := List.forall_mem_cons.mp h
    simp only [link, hfile, get_congr hcanonical, ih hreferences]

theorem visit_congr (hread : w.files.read source.location = v.files.read source.location)
    (href : ∀ parsed, w.parsed? charset source.location = some parsed →
      ∀ reference ∈ parsed.requires, w.AgreesOn v (Directive.resolve source.directory reference))
    (r : Registry) (id : SourceId) : visit w charset r id source = visit v charset r id source := by
  unfold visit
  simp only [← hread]
  split
  · rfl
  · rename_i octets hoctets
    split
    · rfl
    · rename_i parsed hparse
      have hparsed : w.parsed? charset source.location = some parsed := by
        rw [Workspace.parsed?, hoctets]
        exact congrArg Except.toOption hparse
      rw [link_congr (href parsed hparsed)]

theorem Agrees.visit_eq (h : w.Agrees v charset entries)
    (hr : w.Reaches charset entries source.location) :
    visit w charset r id source = visit v charset r id source :=
  visit_congr (h.files _ hr) (h.references _ hr) r id

/-- A sound run takes the same course in both. -/
theorem run_eq_of_agrees (h : w.Agrees v charset entries) (hs : entries.map w.canonical = starts.map .ok)
    (hsound : Sound w charset starts s) : run w charset s = run v charset s := by
  have hvisit : ∀ {s : State}, Sound w charset starts s → ∀ {id source},
      s.registry.source? id = some source →
      visit w charset s.registry id source = visit v charset s.registry id source := by
    intro s hsound id source hsrc
    have hm : source.location ∈ s.registry.locations :=
      List.mem_map_of_mem (List.mem_of_getElem? hsrc)
    obtain ⟨start, hstart, hreach⟩ := hsound.reached source.location hm
    obtain ⟨entry, he, hc⟩ := (Workspace.mem_iff_canonical hs).mp hstart
    exact Agrees.visit_eq h ⟨entry, he, start, hc, hreach⟩
  induction s using run_induction with
  | done r log => rw [run_nil, run_nil]
  | stuck r id rest log source e hsrc hu he =>
    have heq := hvisit hsound hsrc
    simp only at heq
    rw [run_stuck hsrc hu he, run_stuck hsrc hu (heq ▸ he), heq]
  | advance s t ha ih =>
    rw [ha.run_eq, ih (ha.sound hsound)]
    refine (Advance.run_eq ?_).symm
    cases ha with
    | skip r id rest log hskip => exact .skip r id rest log hskip
    | read r id rest log source t queued hsrc hu hv =>
      have heq := hvisit hsound hsrc
      simp only at heq
      rw [heq] at hv ⊢
      exact .read r id rest log source t queued hsrc hu hv

/-- Result and log are the same. -/
theorem discover_eq_of_agrees (h : w.Agrees v charset entries) :
    discover w charset entries = discover v charset entries := by
  unfold discover
  rw [← enterAll_congr h.starts]
  split
  · rfl
  · rename_i r ids he
    obtain ⟨starts, hs, hp⟩ := enterAll_eq_enterEach he
    obtain ⟨rfl, rfl⟩ := Prod.ext_iff.mp hp
    rw [run_eq_of_agrees h hs (sound_begin w charset starts)]

end Discovery

end SourceBundle
