import SourceBundle.Proofs.Discovery.Agreement
import SourceBundle.Proofs.FileSystem.Alike
import SourceBundle.Proofs.Plan.Success

/-! # Changes that a plan does not see

A run that succeeds asks where paths lead, whether a file is there and what the files of the
registry hold. Files outside the registry may get other octets and entries may be added: every
answer stays the same, and so does the plan.
-/
namespace SourceBundle

variable {w : Workspace} {gs : FileSystem} {charset : Charset} {entries paths : List String}
  {path : String} {kept : List Location} {o : Options} {p : Plan}

namespace Workspace

theorem canonical_eq_of_extends {l : Location} (h : w.canonical path = .ok l)
    (hg : FileSystem.Extends w.files gs) : w.canonical path = canonical ⟨gs, w.current⟩ path := by
  rw [h, canonical_mono h hg]

theorem agreesOn_of_isFile (h : w.isFile path = true) (hg : FileSystem.Extends w.files gs) :
    w.AgreesOn ⟨gs, w.current⟩ path := by
  obtain ⟨l, hl⟩ := canonical_of_isFile h
  exact ⟨canonical_eq_of_extends hl hg, h.trans (isFile_mono h hg).symm⟩

/-- Where discovery succeeds, it cannot tell such changes. -/
theorem agrees_of_keeps (hentries : ∀ entry ∈ entries, ∃ l, w.canonical entry = .ok l)
    (hfiles : ∀ l, w.Reaches charset entries l → l ∈ kept ∧ w.Legible charset l)
    (hk : FileSystem.Keeps kept w.files gs) : w.Agrees ⟨gs, w.current⟩ charset entries where
  starts entry he := by
    obtain ⟨l, hl⟩ := hentries entry he
    exact canonical_eq_of_extends hl hk.entries
  files l hl := by
    obtain ⟨hkept, octets, parsed, hread, -, -⟩ := hfiles l hl
    rw [hread, hk.read_eq hkept hread]
  references l hl parsed hp reference hm := by
    obtain ⟨-, octets, parsed', hread, hparse, hisFile⟩ := hfiles l hl
    rw [parsed?, hread] at hp
    obtain rfl := Option.some.inj ((congrArg Except.toOption hparse).symm.trans hp)
    exact agreesOn_of_isFile (hisFile reference hm) hk.entries

end Workspace

/-- What is kept of the entries that are files does not depend on what the files hold. -/
theorem Discovery.filterEntries_congr (h : FileSystem.Extends w.files gs)
    (h' : FileSystem.Extends gs w.files) (paths : List String) :
    filterEntries ⟨gs, w.current⟩ paths = filterEntries w paths := by
  have hfile := (@Workspace.alike_of_extends w.files gs w.current h h').isFile
  have htext : ∀ path, w.isFile path = true →
      Workspace.canonical ⟨gs, w.current⟩ path = w.canonical path := by
    intro path hf
    exact (Workspace.agreesOn_of_isFile hf h).1.symm
  unfold filterEntries
  simp only [hfile]
  congr 1
  refine List.map_congr_left fun path _ => ?_
  split_ifs with hf
  · rw [htext path hf]
  · rfl

namespace Plan

theorem plan_eq_of_keeps (h : (plan w o entries).value = .ok p)
    (hk : FileSystem.Keeps p.registry.locations w.files gs) :
    plan ⟨gs, w.current⟩ o entries = plan w o entries := by
  obtain ⟨starts, hs, hplanned⟩ := plan_planned h
  obtain ⟨hfound, -⟩ := plan_isOk_iff.mp ⟨p, h⟩
  obtain ⟨hentries, hlegible⟩ := Discovery.discover_isOk_iff.mp hfound
  have hfiles : ∀ l, w.Reaches o.charset entries l →
      l ∈ p.registry.locations ∧ w.Legible o.charset l :=
    fun l hl => ⟨(hplanned.complete.mem_locations_iff hs).mpr hl, hlegible l hl⟩
  have hagrees := Workspace.agrees_of_keeps hentries hfiles hk
  rw [plan, plan, Discovery.discover_eq_of_agrees hagrees]

end Plan

end SourceBundle
