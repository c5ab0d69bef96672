import SourceBundle.Glob.Basic
import SourceBundle.Proofs.FileSystem.Change
import SourceBundle.Proofs.FileSystem.Names

/-! # Workspaces that look alike

Where at most the octets of files differ, paths lead to entries of the same kinds and directories
have the same names. Only reading a file can tell.
-/
namespace SourceBundle

open Text.Utf8 (Octets)
open FileSystem (Extends)

variable {w : Workspace} {fs gs : FileSystem} {l : Location} {c : Location} {path : String}
  {octets : Octets}

namespace FileSystem

/-- At most one file holds other octets. -/
structure Rewritten (l : Location) (fs gs : FileSystem) : Prop where
  forth : Extends fs gs
  back : Extends gs fs
  others : ∀ m, m ≠ l → gs.find? m = fs.find? m

theorem Rewritten.refl (l : Location) (fs : FileSystem) : Rewritten l fs fs :=
  ⟨(Grows.refl fs).extends, (Grows.refl fs).extends, fun _ _ => rfl⟩

theorem rewritten_of_overwrite {old new : Octets} (hold : fs.find? l = some (.file old))
    (hnew : gs.find? l = some (.file new)) (hothers : ∀ m, m ≠ l → gs.find? m = fs.find? m) :
    Rewritten l fs gs :=
  ⟨extends_of_overwrite hold hnew hothers,
    extends_of_overwrite hnew hold fun m hm => (hothers m hm).symm, hothers⟩

theorem Extends.exists_of_find? (h : Extends fs gs) {e : Entry} (he : fs.find? l = some e) :
    ∃ e', gs.find? l = some e' := by
  rcases h l e he with hsame | ⟨-, octets, hnew⟩
  · exact ⟨e, hsame⟩
  · exact ⟨_, hnew⟩

theorem mem_entries_iff {name : String} :
    (∃ e, (l ++ [name], e) ∈ fs.entries) ↔ ∃ e, fs.find? (l ++ [name]) = some e := by
  constructor
  · rintro ⟨e, he⟩
    rw [find?, if_neg (by simp)]
    exact Option.isSome_iff_exists.mp (List.lookup_isSome_iff.mpr ⟨_, he, by simp⟩)
  · rintro ⟨e, he⟩
    exact ⟨e, exists_of_find? he (by simp)⟩

theorem names_eq (h : Extends fs gs) (h' : Extends gs fs) : gs.names l = fs.names l := by
  refine names_eq_of_mem_iff (fs.names_sorted l) fun name => ?_
  rw [mem_names_iff, mem_entries_iff, mem_entries_iff]
  exact ⟨fun ⟨_, he⟩ => h.exists_of_find? he, fun ⟨_, he⟩ => h'.exists_of_find? he⟩

end FileSystem

namespace Workspace

/-- No question but for what a file holds tells the two apart. -/
structure Alike (v w : Workspace) : Prop where
  isFile : ∀ path, v.isFile path = w.isFile path
  isDirectory : ∀ path, v.isDirectory path = w.isDirectory path
  exists? : ∀ path, v.exists? path = w.exists? path
  names : ∀ path, Glob.names v path = Glob.names w path

theorem exists?_mono (h : exists? ⟨fs, c⟩ path = true) (hg : Extends fs gs) :
    exists? ⟨gs, c⟩ path = true := by
  obtain ⟨e, he⟩ := Option.isSome_iff_exists.mp h
  rcases entry?_mono he hg with hsame | ⟨-, octets, hnew⟩
  · exact Option.isSome_iff_exists.mpr ⟨_, hsame⟩
  · exact Option.isSome_iff_exists.mpr ⟨_, hnew⟩

theorem place_mono (h : place ⟨fs, c⟩ path = .ok l) (hg : Extends fs gs) :
    place ⟨gs, c⟩ path = .ok l := by
  obtain ⟨hpath, hc⟩ := place_eq_ok_iff.mp h
  exact place_eq_ok_iff.mpr ⟨hpath, canonical_mono hc hg⟩

theorem names_eq (h : Extends fs gs) (h' : Extends gs fs) (path : String) :
    Glob.names ⟨gs, c⟩ path = Glob.names ⟨fs, c⟩ path := by
  unfold Glob.names
  cases hp : place ⟨fs, c⟩ path with
  | ok m =>
    rw [place_mono hp h]
    have hd : gs.find? m = some .directory ↔ fs.find? m = some .directory :=
      ⟨h'.directory, h.directory⟩
    simp only [hd, FileSystem.names_eq h h']
  | error fault =>
    cases hp' : place ⟨gs, c⟩ path with
    | ok m => cases hp.symm.trans (place_mono hp' h')
    | error fault' => rfl

theorem alike_of_extends (h : Extends fs gs) (h' : Extends gs fs) : Alike ⟨gs, c⟩ ⟨fs, c⟩ where
  isFile _ := Bool.eq_iff_iff.mpr ⟨fun hf => isFile_mono hf h', fun hf => isFile_mono hf h⟩
  isDirectory _ :=
    Bool.eq_iff_iff.mpr ⟨fun hd => isDirectory_mono hd h', fun hd => isDirectory_mono hd h⟩
  exists? _ := Bool.eq_iff_iff.mpr ⟨fun he => exists?_mono he h', fun he => exists?_mono he h⟩
  names := names_eq h h'

/-- A file elsewhere is read as before. -/
theorem read_of_rewritten (h : FileSystem.Rewritten l w.files gs) (hne : w.canonical path ≠ .ok l)
    (hr : w.read path = .ok octets) : read ⟨gs, w.current⟩ path = .ok octets := by
  obtain ⟨m, hp, hread⟩ := bind_ok hr
  have hm : m ≠ l := fun heq => hne (heq ▸ (place_eq_ok_iff.mp hp).2)
  have hplace : place ⟨gs, w.current⟩ path = .ok m := place_mono hp h.forth
  rw [read, hplace]
  rw [FileSystem.read] at hread
  rw [← hread, ← h.others m hm]
  rfl

end Workspace

end SourceBundle
