import Mathlib.Data.List.TakeWhile
import SourceBundle.Proofs.FileSystem.Walk
import SourceBundle.Proofs.Outcome

/-! # What creating directories and files changes

A directory is made only where nothing is, and a path then leads to it. A file is put where its
path leads, or would lead. All other entries stay as they are.
-/
namespace SourceBundle

open FileSystem (Grows Way origin)

variable {w : Workspace} {files gs : FileSystem} {path : String} {l : Location}
  {octets : Text.Utf8.Octets}

namespace Workspace

theorem canonical_eq_ok_iff : w.canonical path = .ok l ↔ accept path = .ok () ∧
    Way w.files linkLimit (origin w.current path) (Path.pieces path) l := by
  constructor
  · intro h
    obtain ⟨_, ha, hw⟩ := bind_ok h
    exact ⟨ha, FileSystem.way_of_walk hw⟩
  · rintro ⟨ha, hw⟩
    rw [canonical, ha]
    exact hw.walk_eq

theorem canonical_mono {c : Location} (h : canonical ⟨files, c⟩ path = .ok l)
    (hg : FileSystem.Extends files gs) : canonical ⟨gs, c⟩ path = .ok l := by
  obtain ⟨ha, hw⟩ := canonical_eq_ok_iff.mp h
  exact canonical_eq_ok_iff.mpr ⟨ha, hw.mono hg⟩

theorem place_eq_ok_iff :
    w.place path = .ok l ↔ ¬pathLimit < path.utf8ByteSize ∧ w.canonical path = .ok l := by
  unfold place
  cases ha : accept path with
  | error fault => simp [canonical, ha, bind, Except.bind]
  | ok _ =>
    by_cases hpath : pathLimit < path.utf8ByteSize
    · simp [hpath, bind, Except.bind, throw, throwThe, MonadExceptOf.throw]
    · simp [hpath, bind, Except.bind]

theorem entry?_eq_some_iff {e : Entry} : w.entry? path = some e ↔
    ¬pathLimit < path.utf8ByteSize ∧
      ∃ l, w.canonical path = .ok l ∧ w.files.find? l = some e := by
  unfold entry?
  constructor
  · intro h
    split at h
    · rename_i l hp
      obtain ⟨hpath, hc⟩ := place_eq_ok_iff.mp hp
      exact ⟨hpath, l, hc, h⟩
    · cases h
  · rintro ⟨hpath, l, hc, he⟩
    rw [place_eq_ok_iff.mpr ⟨hpath, hc⟩]
    exact he

theorem isFile_iff : w.isFile path = true ↔ ∃ octets, w.entry? path = some (.file octets) := by
  rw [isFile, Option.any_eq_true]
  constructor
  · rintro ⟨e, he, hfile⟩
    cases e with
    | file octets => exact ⟨octets, he⟩
    | directory => cases hfile
    | link => cases hfile
  · rintro ⟨octets, he⟩
    exact ⟨_, he, rfl⟩

/-! ## Directories -/

/-- What `dropWhile` finds from behind: the last symbol that is not dropped. -/
theorem eq_append_of_dropWhile_reverse {α : Type} {p : α → Bool} {xs before : List α} {x : α}
    (h : xs.reverse.dropWhile p = x :: before) :
    ∃ dropped, xs = before.reverse ++ x :: dropped ∧ (∀ y ∈ dropped, p y = true) ∧
      p x = false := by
  refine ⟨(xs.reverse.takeWhile p).reverse, ?_,
    fun y hy => List.mem_takeWhile_imp (List.mem_reverse.mp hy), ?_⟩
  · have hsplit := congrArg List.reverse (List.takeWhile_append_dropWhile (p := p) (l := xs.reverse))
    rw [h, List.reverse_reverse, List.reverse_append, List.reverse_cons, List.append_assoc] at hsplit
    exact hsplit.symm
  · have hhead := List.head?_dropWhile_not p xs.reverse
    rw [h] at hhead
    exact hhead

/-- The pieces of a path that ends in a name. -/
theorem pieces_of_lastName {before : List String} {name : String}
    (h : lastName path = (before, some name)) :
    ∃ empties, Path.pieces path = before ++ name :: empties ∧ (∀ piece ∈ empties, piece = "") ∧
      Path.namesNothing name = false ∧ name ≠ ".." := by
  unfold lastName at h
  split at h
  · cases h
  · rename_i piece rest hdrop
    obtain ⟨empties, hpieces, hempties, hpiece⟩ := eq_append_of_dropWhile_reverse hdrop
    obtain ⟨rfl, hname⟩ := Prod.mk.inj h
    split_ifs at hname with hdots
    obtain rfl := Option.some.inj hname
    rw [not_or] at hdots
    refine ⟨empties, hpieces, fun y hy => of_decide_eq_true (hempties y hy), ?_, hdots.2⟩
    simpa [Path.namesNothing, hdots.1] using hpiece

theorem way_empties {links : Nat} {empties : List String} (hd : files.find? l = some .directory)
    (h : ∀ piece ∈ empties, piece = "") : Way files links l empties l := by
  induction empties with
  | nil => exact .here links l
  | cons piece empties ih =>
    obtain ⟨rfl, hempties⟩ := List.forall_mem_cons.mp h
    refine .place ?_ (ih hempties)
    rw [FileSystem.enter_of_directory hd]
    rfl

theorem enter_new {name : String} {l : Location} (hd : files.find? l = some .directory)
    (hnothing : Path.namesNothing name = false) (hup : name ≠ "..")
    (hlong : ¬nameLimit < name.utf8ByteSize) :
    (files.insert (l ++ [name]) .directory).enter l name = .ok (.place (l ++ [name])) := by
  rw [FileSystem.enter_of_directory ((FileSystem.find?_insert_parent files l name _).trans hd),
    hnothing, if_neg Bool.false_ne_true, if_neg hup, if_neg hlong, FileSystem.find?_insert_child]

/-- A new directory lies in one that exists, where nothing was. -/
theorem createDirectory_inv (h : w.createDirectory path = .ok files) :
    accept path = .ok () ∧ ∃ parent before name, lastName path = (before, some name) ∧
      w.files.walk linkLimit (origin w.current path) before = .ok parent ∧
      w.files.find? parent = some .directory ∧ ¬nameLimit < name.utf8ByteSize ∧
      w.files.find? (parent ++ [name]) = none ∧
      files = w.files.insert (parent ++ [name]) .directory := by
  obtain ⟨_, ha, h⟩ := bind_ok h
  simp only [bind, Except.bind, pure, Except.pure, throw, throwThe, MonadExceptOf.throw] at h
  split_ifs at h with hpath
  split at h
  · cases h
  · rename_i parent hwalk
    split at h
    · cases h
    · rename_i hdir
      split at h
      · cases h
      · rename_i name hname
        split_ifs at h with hlong
        split at h
        · cases h
        · rename_i hnone
          cases h
          exact ⟨ha, parent, (lastName path).1, name, Prod.ext rfl hname, hwalk,
            FileSystem.asDirectory_eq_ok_iff.mp hdir, hlong, hnone, rfl⟩

theorem createDirectory_ok (h : w.createDirectory path = .ok files) :
    ∃ l, w.files.find? l = none ∧ files = w.files.insert l .directory ∧
      canonical ⟨files, w.current⟩ path = .ok l := by
  obtain ⟨ha, parent, before, name, hlast, hwalk, hdir, hlong, hnone, rfl⟩ := createDirectory_inv h
  obtain ⟨empties, hpieces, hempties, hnothing, hup⟩ := pieces_of_lastName hlast
  refine ⟨parent ++ [name], hnone, rfl, canonical_eq_ok_iff.mpr ⟨ha, ?_⟩⟩
  have hgrows := FileSystem.grows_insert hnone Entry.directory
  obtain ⟨left, hleft⟩ := ((FileSystem.way_of_walk hwalk).mono hgrows.extends).exists_append
  have hnew := FileSystem.find?_insert_child w.files parent name .directory
  rw [hpieces]
  exact hleft _ _ (.place (enter_new hdir hnothing hup hlong) (way_empties hnew hempties))

/-- Entries are kept, and the new ones are directories to which the paths lead. -/
structure Made (w : Workspace) (paths : List String) (files : FileSystem) : Prop where
  grows : Grows w.files files
  new : ∀ l e, files.find? l = some e → w.files.find? l = some e ∨
    w.files.find? l = none ∧ e = .directory ∧
      ∃ path ∈ paths, canonical ⟨files, w.current⟩ path = .ok l

variable {paths : List String}

theorem made_none (w : Workspace) (paths : List String) : Made w paths w.files :=
  ⟨.refl w.files, fun _ _ h => Or.inl h⟩

theorem Made.cons (h : Made w paths files) (path : String) : Made w (path :: paths) files := by
  refine ⟨h.grows, fun l e hl => ?_⟩
  rcases h.new l e hl with hold | ⟨hnone, rfl, q, hq, hc⟩
  · exact Or.inl hold
  · exact Or.inr ⟨hnone, rfl, q, List.mem_cons_of_mem path hq, hc⟩

theorem Made.create (h : Made w paths files)
    (hc : createDirectory ⟨files, w.current⟩ path = .ok gs) : Made w (path :: paths) gs := by
  obtain ⟨l, hnone, rfl, hl⟩ := createDirectory_ok hc
  have hgrows := FileSystem.grows_insert hnone Entry.directory
  refine ⟨h.grows.trans hgrows, fun m e hm => ?_⟩
  by_cases hml : m = l
  · subst hml
    have hdir : files.find? m ≠ some .directory := fun h => by cases hnone.symm.trans h
    have hne : m ≠ [] := FileSystem.ne_nil_of_find? hdir
    rw [FileSystem.find?_insert_self hne] at hm
    cases hm
    have hold : w.files.find? m = none := by
      cases ho : w.files.find? m with
      | none => rfl
      | some e => rw [h.grows m e ho] at hnone; cases hnone
    exact Or.inr ⟨hold, rfl, path, List.mem_cons_self, hl⟩
  · rw [FileSystem.find?_insert_of_ne hml] at hm
    rcases (h.cons path).new m e hm with hold | ⟨hn, he, q, hq, hcan⟩
    · exact Or.inl hold
    · exact Or.inr ⟨hn, he, q, hq, canonical_mono hcan hgrows.extends⟩

/-- Also when it fails half way, making directories only adds some. -/
theorem made_createEach (w : Workspace) (paths : List String) :
    Made w paths (w.createEach paths).1 := by
  induction paths with
  | nil => exact made_none w []
  | cons path parents ih =>
    by_cases hempty : path = ""
    · rw [createEach, if_pos hempty]
      exact made_none w _
    · rw [createEach, if_neg hempty]
      split
      · rename_i files hc
        exact (made_none w parents).create hc
      · split
        · rename_i files fault he
          rw [he] at ih
          exact ih.cons path
        · rename_i files he
          rw [he] at ih
          split
          · rename_i gs hc
            exact ih.create hc
          · exact ih.cons path
      · exact made_none w _

/-! ## A file -/

theorem fileToCreate_eq_ok_iff : w.fileToCreate path = .ok l ↔ accept path = .ok () ∧
    ¬pathLimit < path.utf8ByteSize ∧ path.toList.getLast? ≠ some '/' ∧
    w.files.find? l ≠ some .directory ∧
    w.files.locate linkLimit (origin w.current path) (Path.pieces path) = .ok l := by
  constructor
  · intro h
    obtain ⟨_, ha, h⟩ := bind_ok h
    simp only [bind, Except.bind, pure, Except.pure, throw, throwThe, MonadExceptOf.throw] at h
    split_ifs at h with hpath hslash
    · split at h
      · cases h
      · split at h <;> cases h
    · split at h
      · cases h
      · rename_i m hlocate
        split at h
        · cases h
        · rename_i hdir
          cases h
          exact ⟨ha, hpath, hslash, fun hd => hdir hd, hlocate⟩
  · rintro ⟨ha, hpath, hslash, hdir, hlocate⟩
    rw [fileToCreate, ha]
    simp only [bind, Except.bind, pure, Except.pure, if_neg hpath, if_neg hslash, hlocate]

/-- What putting a file at a path comes to: the path leads to it, as it did before if it led
anywhere, and everything else is as it was. -/
structure Put (w : Workspace) (path : String) (octets : Text.Utf8.Octets) (l : Location)
    (files : FileSystem) : Prop where
  canonical : canonical ⟨files, w.current⟩ path = .ok l
  read : read ⟨files, w.current⟩ path = .ok octets
  same : ∀ m, w.canonical path = .ok m → m = l
  others : ∀ m, m ≠ l → files.find? m = w.files.find? m

theorem exists_put (h : w.writeFile path octets = .ok files) : ∃ l, Put w path octets l files := by
  obtain ⟨l, hl, hfiles⟩ := bind_ok h
  cases hfiles
  obtain ⟨ha, hpath, -, hdir, hlocate⟩ := fileToCreate_eq_ok_iff.mp hl
  have hne : l ≠ [] := FileSystem.ne_nil_of_find? hdir
  have hcanonical : canonical ⟨w.files.insert l (.file octets), w.current⟩ path = .ok l :=
    canonical_eq_ok_iff.mpr ⟨ha, (FileSystem.leads_of_locate hlocate).way_insert hdir⟩
  refine ⟨l, hcanonical, ?_, ?_, fun m hm => FileSystem.find?_insert_of_ne hm⟩
  · rw [Workspace.read, place_eq_ok_iff.mpr ⟨hpath, hcanonical⟩]
    simp only [bind, Except.bind, FileSystem.read, FileSystem.find?_insert_self hne]
  · intro m hm
    have hway := (canonical_eq_ok_iff.mp hm).2
    exact Except.ok.inj (hway.locate_eq.symm.trans hlocate)

end Workspace

end SourceBundle
