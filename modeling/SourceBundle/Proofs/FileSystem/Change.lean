import Mathlib.Logic.Relation
import SourceBundle.Proofs.FileSystem.Create

/-! # Changes that keep some files

Files that need not be kept get other octets, and entries appear where nothing was. After any number
of such changes a path that led somewhere leads there still, a file is a file, and the files kept
hold what they held.
-/
namespace SourceBundle

open Text.Utf8 (Octets)

namespace FileSystem

variable {fs gs hs : FileSystem} {kept : List Location} {l : Location}

/-- One change: a file that need not be kept gets other octets, or something appears where nothing
was. Everything else is as before. -/
inductive Change (kept : List Location) (fs gs : FileSystem) : Prop
  | overwrite (l : Location) (old new : Octets) (hl : l ∉ kept)
      (hold : fs.find? l = some (.file old)) (hnew : gs.find? l = some (.file new))
      (hothers : ∀ m, m ≠ l → gs.find? m = fs.find? m)
  | create (l : Location) (e : Entry) (hnone : fs.find? l = none) (hnew : gs.find? l = some e)
      (hothers : ∀ m, m ≠ l → gs.find? m = fs.find? m)

/-- What changes do not take away. -/
structure Keeps (kept : List Location) (fs gs : FileSystem) : Prop where
  entries : Extends fs gs
  files : ∀ l ∈ kept, ∀ e, fs.find? l = some e → gs.find? l = some e

theorem Keeps.refl (kept : List Location) (fs : FileSystem) : Keeps kept fs fs :=
  ⟨(Grows.refl fs).extends, fun _ _ _ he => he⟩

theorem Extends.trans (h : Extends fs gs) (h' : Extends gs hs) : Extends fs hs := by
  intro l e he
  rcases h l e he with hsame | ⟨hfile, octets, hnew⟩
  · exact h' l e hsame
  · rcases h' l _ hnew with hsame | ⟨-, hlast⟩
    · exact Or.inr ⟨hfile, octets, hsame⟩
    · exact Or.inr ⟨hfile, hlast⟩

/-- Whatever a file held, it is a file before and after. -/
theorem extends_of_overwrite {old new : Octets} (hold : fs.find? l = some (.file old))
    (hnew : gs.find? l = some (.file new)) (hothers : ∀ m, m ≠ l → gs.find? m = fs.find? m) :
    Extends fs gs := by
  intro m e hm
  by_cases hml : m = l
  · subst hml
    rw [hold] at hm
    cases hm
    exact Or.inr ⟨rfl, new, hnew⟩
  · exact Or.inl ((hothers m hml).trans hm)

theorem Change.keeps (h : Change kept fs gs) : Keeps kept fs gs := by
  cases h with
  | overwrite l old new hl hold hnew hothers =>
    refine ⟨extends_of_overwrite hold hnew hothers, fun m hk e hm => ?_⟩
    have hml : m ≠ l := fun he => hl (he ▸ hk)
    exact (hothers m hml).trans hm
  | create l e hnone hnew hothers =>
    have hgrows : Grows fs gs := by
      intro m e' hm
      have hml : m ≠ l := by
        rintro rfl
        rw [hnone] at hm
        cases hm
      exact (hothers m hml).trans hm
    exact ⟨hgrows.extends, fun m _ => hgrows m⟩

theorem keeps_of_changes (h : Relation.ReflTransGen (Change kept) fs gs) : Keeps kept fs gs := by
  induction h with
  | refl => exact .refl kept fs
  | tail _ hc ih =>
    have hk := hc.keeps
    exact ⟨ih.entries.trans hk.entries, fun l hl e he => hk.files l hl e (ih.files l hl e he)⟩

theorem Keeps.read_eq {octets : Octets} (h : Keeps kept fs gs) (hl : l ∈ kept)
    (hr : fs.read l = .ok octets) : gs.read l = .ok octets := by
  unfold read at hr ⊢
  split at hr
  · rename_i found he
    cases hr
    rw [h.files l hl _ he]
  · cases hr
  · cases hr
  · cases hr

end FileSystem

namespace Workspace

variable {fs gs : FileSystem} {c : Location} {path : String}

/-- A path that leads to an entry leads to it after all changes, or to a file with other octets. -/
theorem entry?_mono {e : Entry} (h : entry? ⟨fs, c⟩ path = some e)
    (hg : FileSystem.Extends fs gs) : entry? ⟨gs, c⟩ path = some e ∨
      e.isFile = true ∧ ∃ octets, entry? ⟨gs, c⟩ path = some (.file octets) := by
  obtain ⟨hpath, l, hc, he⟩ := entry?_eq_some_iff.mp h
  have hc := canonical_mono hc hg
  rcases hg l e he with hsame | ⟨hfile, octets, hnew⟩
  · exact Or.inl (entry?_eq_some_iff.mpr ⟨hpath, l, hc, hsame⟩)
  · exact Or.inr ⟨hfile, octets, entry?_eq_some_iff.mpr ⟨hpath, l, hc, hnew⟩⟩

theorem isFile_mono (h : isFile ⟨fs, c⟩ path = true) (hg : FileSystem.Extends fs gs) :
    isFile ⟨gs, c⟩ path = true := by
  obtain ⟨octets, he⟩ := isFile_iff.mp h
  rcases entry?_mono he hg with hsame | ⟨-, new, hnew⟩
  · exact isFile_iff.mpr ⟨octets, hsame⟩
  · exact isFile_iff.mpr ⟨new, hnew⟩

theorem isDirectory_mono (h : isDirectory ⟨fs, c⟩ path = true) (hg : FileSystem.Extends fs gs) :
    isDirectory ⟨gs, c⟩ path = true := by
  have he := of_decide_eq_true h
  rcases entry?_mono he hg with hsame | ⟨hfile, -⟩
  · exact decide_eq_true hsame
  · cases hfile

end Workspace

end SourceBundle
