import SourceBundle.Proofs.FileSystem.Parents
import SourceBundle.Proofs.Path.Join

/-! # Going on from a path

A path that is followed by more pieces passes through the place of the path itself. Pieces that name
nothing on the way only ask for a directory.
-/
namespace SourceBundle

namespace FileSystem

variable {fs : FileSystem} {l m : Location} {links : Nat} {piece : String}
  {rest pieces : List String}

/-- A piece that names nothing asks for a directory and stays there. -/
theorem way_nothing_iff (hp : Path.namesNothing piece = true) :
    Way fs links l (piece :: rest) m ↔ fs.find? l = some .directory ∧ Way fs links l rest m := by
  constructor
  · intro h
    obtain ⟨reached, he⟩ := h.exists_enter
    have hd := directory_of_enter he
    have hstay := enter_of_directory hd piece
    rw [if_pos hp] at hstay
    refine ⟨hd, ?_⟩
    cases h with
    | place he hw =>
      cases hstay.symm.trans he
      exact hw
    | link he => cases hstay.symm.trans he
  · rintro ⟨hd, h⟩
    have hstay := enter_of_directory hd piece
    rw [if_pos hp] at hstay
    exact .place hstay h

theorem Way.directory (h : Way fs links l (piece :: rest) m) : fs.find? l = some .directory := by
  obtain ⟨reached, he⟩ := h.exists_enter
  exact directory_of_enter he

theorem Way.replace {front back back' : List String} (h : Way fs links l (front ++ back) m)
    (hb : ∀ links l, Way fs links l back m → Way fs links l back' m) :
    Way fs links l (front ++ back') m := by
  generalize hp : front ++ back = pieces at h
  induction h generalizing front with
  | here links l =>
    obtain ⟨rfl, rfl⟩ := List.append_eq_nil_iff.mp hp
    exact hb links l (.here links l)
  | @place links l next m piece rest he hw ih =>
    rcases List.append_eq_cons_iff.mp hp with ⟨rfl, rfl⟩ | ⟨front, rfl, rfl⟩
    · exact hb links l (.place he hw)
    · exact .place he (ih hb rfl)
  | @link links l m piece target rest he hw ih =>
    rcases List.append_eq_cons_iff.mp hp with ⟨rfl, rfl⟩ | ⟨front, rfl, rfl⟩
    · exact hb (links + 1) l (.link he hw)
    · have hw := ih hb (List.append_assoc _ front back)
      rw [List.append_assoc] at hw
      exact .link he hw

theorem way_nothings_iff {body : List String}
    (hb : ∀ piece ∈ body, Path.namesNothing piece = true) :
    Way fs links l (body ++ piece :: rest) m ↔ Way fs links l (piece :: rest) m := by
  induction body with
  | nil => rfl
  | cons first body ih =>
    obtain ⟨hfirst, hb⟩ := List.forall_mem_cons.mp hb
    rw [List.cons_append, way_nothing_iff hfirst, ih hb, and_iff_right_iff_imp]
    exact Way.directory

end FileSystem

namespace Workspace

open FileSystem (Way origin)

variable {w : Workspace} {path name : String} {more : List String} {l : Location}

/-- The path, and the pieces after it, lead to the location. -/
def Onward (w : Workspace) (path : String) (more : List String) (l : Location) : Prop :=
  Way w.files linkLimit (origin w.current path) (Path.pieces path ++ more) l

theorem canonical_iff_onward :
    w.canonical path = .ok l ↔ accept path = .ok () ∧ w.Onward path [] l := by
  rw [canonical_eq_ok_iff, Onward, List.append_nil]

theorem onward_join_iff (hp : path ≠ "") (hname : '/' ∉ name.toList) :
    w.Onward (Path.join path name) more l ↔ w.Onward path (name :: more) l := by
  have horigin : origin w.current (Path.join path name) = origin w.current path := by
    rw [origin, origin, Path.isAbsolute_join_relative (Path.isAbsolute_of_whole hname)]
  obtain ⟨front, hjoin, hfront⟩ := Path.pieces_join_name hp hname
  unfold Onward
  rw [horigin, hjoin, List.append_assoc, List.singleton_append]
  rcases hfront with hp | hp
  · rw [hp]
  · rw [hp, List.append_assoc, List.singleton_append]
    have hnothing : Path.namesNothing "" = true := rfl
    constructor
    · exact fun h => h.replace fun _ _ hb =>
        (FileSystem.way_nothing_iff hnothing).mpr ⟨hb.directory, hb⟩
    · exact fun h => h.replace fun _ _ hb => ((FileSystem.way_nothing_iff hnothing).mp hb).2

/-- What leads onward passes through the place of the path itself. -/
theorem exists_of_onward_name (h : w.Onward path [name] l) : ∃ links middle,
    w.Onward path [] middle ∧ Way w.files links middle [name] l := by
  obtain ⟨links, middle, hfront, hback⟩ := FileSystem.Way.exists_middle h
  exact ⟨links, middle, by rwa [Onward, List.append_nil], hback⟩

theorem accept_of_pieces (hnul : ∀ piece ∈ Path.pieces path, '\x00' ∉ piece.toList)
    (hname : ∃ piece ∈ Path.pieces path, piece ≠ "") : accept path = .ok () := by
  refine accept_eq_ok_iff.mpr ⟨fun hm => ?_, ?_⟩
  · obtain ⟨piece, hp, hm⟩ := Path.exists_mem_pieces_iff.mpr ⟨hm, by decide⟩
    exact hnul piece hp hm
  · rintro rfl
    obtain ⟨piece, hp, hne⟩ := hname
    exact hne (List.mem_singleton.mp hp)

/-! ## What lies at a path -/

theorem isDirectory_iff : w.isDirectory path = true ↔ w.entry? path = some .directory := by
  rw [isDirectory, decide_eq_true_eq]

theorem not_isFile_of_directory (h : w.isDirectory path = true) : w.isFile path = false := by
  rw [isFile, isDirectory_iff.mp h]
  rfl

theorem isFile_of_way {path : String} {l : Location} {octets : Text.Utf8.Octets}
    (hsize : path.utf8ByteSize ≤ pathLimit) (haccept : accept path = .ok ())
    (hway : Way w.files linkLimit (origin w.current path) (Path.pieces path) l)
    (hl : w.files.find? l = some (.file octets)) : w.isFile path = true :=
  isFile_iff.mpr ⟨octets, entry?_eq_some_iff.mpr
    ⟨Nat.not_lt.mpr hsize, l, canonical_eq_ok_iff.mpr ⟨haccept, hway⟩, hl⟩⟩

end Workspace

end SourceBundle
