import SourceBundle.Proofs.Distinct
import SourceBundle.Proofs.FileSystem.Names
import SourceBundle.Proofs.FileSystem.Onward
import SourceBundle.Glob.Basic

/-! # One name below a path

A search writes the path of a name by joining the name to the path, unless the path is the current
directory. What lies at such a path lies in a directory that the search can read.
-/
namespace SourceBundle

namespace Glob

variable {path name : String}

theorem isHere_iff : isHere path = true ↔
    ∃ body, Path.pieces path = "." :: body ∧ ∀ piece ∈ body, Path.namesNothing piece = true := by
  have hsettle : ∀ body : List String, (Path.settle body).isEmpty = true ↔
      ∀ piece ∈ body, Path.namesNothing piece = true := by
    intro body
    simp [Path.settle]
  constructor
  · intro h
    unfold isHere at h
    split at h
    · rename_i body hb
      have hne : path ≠ "" := by
        rintro rfl
        cases hb
      have hp := Path.pieces_eq_anchored hne
      rw [hb] at hp
      exact ⟨body, hp, (hsettle body).mp h⟩
    · cases h
  · rintro ⟨body, hb, hn⟩
    unfold isHere Path.anchored
    rw [hb]
    exact (hsettle body).mpr hn

theorem child_of_isHere (h : isHere path = true) : child path name = name := if_pos h

theorem child_of_not_isHere (h : isHere path = false) : child path name = Path.join path name :=
  if_neg (Bool.eq_false_iff.mp h)

/-- A path that a search stands at: the current directory is written in the shortest way. -/
structure Reached (path : String) : Prop where
  something : path ≠ ""
  short : path = "." ∨ isHere path = false

theorem not_isHere_of_whole (hname : '/' ∉ name.toList) (hdot : name ≠ ".") :
    isHere name = false := by
  rw [Bool.eq_false_iff, Ne, isHere_iff, Path.pieces_of_whole hname]
  rintro ⟨body, hb, -⟩
  exact hdot (List.cons_eq_cons.mp hb).1

theorem not_isHere_join (hp : path ≠ "") (hhere : isHere path = false)
    (hname : '/' ∉ name.toList) : isHere (Path.join path name) = false := by
  rw [Bool.eq_false_iff, Ne, isHere_iff]
  rintro ⟨body, hb, hn⟩
  obtain ⟨front, hjoin, hfront⟩ := Path.pieces_join_name hp hname
  rw [hjoin] at hb
  refine Bool.eq_false_iff.mp hhere (isHere_iff.mpr ?_)
  cases front with
  | nil =>
    rcases hfront with hpieces | hpieces
    · exact absurd hpieces (Path.pieces_ne_nil path)
    · exact absurd (Path.eq_of_pieces (hpieces.trans Path.pieces_empty.symm)) hp
  | cons first front =>
    obtain ⟨rfl, rfl⟩ := List.cons_eq_cons.mp hb
    have hfrontn := fun piece hm => hn piece (List.mem_append_left [name] hm)
    rcases hfront with hpieces | hpieces
    · exact ⟨front, hpieces, hfrontn⟩
    · refine ⟨front ++ [""], hpieces, fun piece hm => ?_⟩
      rcases List.mem_append.mp hm with hm | hm
      · exact hfrontn piece hm
      · rw [List.mem_singleton.mp hm]
        rfl

theorem reached_child (h : Reached path) (hname : '/' ∉ name.toList) (hne : child path name ≠ "") :
    Reached (child path name) := by
  refine ⟨hne, ?_⟩
  rcases h.short with rfl | hhere
  · have hchild : child "." name = name := child_of_isHere rfl
    rw [hchild]
    by_cases hdot : name = "."
    · exact Or.inl hdot
    · exact Or.inr (not_isHere_of_whole hname hdot)
  · rw [child_of_not_isHere hhere]
    exact Or.inr (not_isHere_join h.something hhere hname)

end Glob

theorem Workspace.onward_child_iff {w : Workspace} {path name : String}
    {more : List String} {l : Location} (hp : path ≠ "") (hname : '/' ∉ name.toList) :
    w.Onward (Glob.child path name) more l ↔ w.Onward path (name :: more) l := by
  by_cases hhere : Glob.isHere path = true
  · rw [Glob.child_of_isHere hhere]
    obtain ⟨body, hb, hn⟩ := Glob.isHere_iff.mp hhere
    have hrel : Path.isAbsolute path = false := by
      rw [Bool.eq_false_iff, Ne, Path.isAbsolute_iff_pieces]
      rintro ⟨piece, rest, hpieces⟩
      rw [hb] at hpieces
      exact absurd (List.cons_eq_cons.mp hpieces).1 (by decide)
    have hdots : ∀ piece ∈ "." :: body, Path.namesNothing piece = true :=
      List.forall_mem_cons.mpr ⟨rfl, hn⟩
    unfold Onward FileSystem.origin
    rw [Path.isAbsolute_of_whole hname, hrel, Path.pieces_of_whole hname, hb,
      List.singleton_append, FileSystem.way_nothings_iff hdots]
  · rw [Glob.child_of_not_isHere (Bool.eq_false_iff.mpr hhere), onward_join_iff hp hname]

namespace Glob

variable {w : Workspace} {path name : String} {e : Entry}

/-- The path of a name is longer than the path before it, unless that is only a dot. -/
theorem size_child (h : Reached path) (hname : '/' ∉ name.toList) :
    path = "." ∧ child path name = name ∨
      path.utf8ByteSize + name.utf8ByteSize ≤ (child path name).utf8ByteSize := by
  rcases h.short with rfl | hhere
  · exact Or.inl ⟨rfl, child_of_isHere rfl⟩
  · right
    rw [child_of_not_isHere hhere]
    rcases Path.join_name hname with hjoin | hjoin <;> rw [hjoin]
    · rw [String.utf8ByteSize_append]
    · rw [String.utf8ByteSize_append, String.utf8ByteSize_append]
      omega

theorem size_pos (h : path ≠ "") : 0 < path.utf8ByteSize :=
  Nat.pos_of_ne_zero fun hz => h (String.utf8ByteSize_eq_zero_iff.mp hz)

theorem child_ne_empty (h : Reached path) (hname : name ≠ "") (hwhole : '/' ∉ name.toList) :
    child path name ≠ "" := by
  intro hempty
  have hsize := size_pos hname
  rcases size_child h hwhole with ⟨-, hchild⟩ | hle
  · exact hname (hchild.symm.trans hempty)
  · rw [hempty] at hle
    have hzero : "".utf8ByteSize = 0 := rfl
    omega

theorem mem_child (hhere : isHere path = false) (hname : '/' ∉ name.toList) {c : Char}
    (hc : c ∈ path.toList) : c ∈ (child path name).toList := by
  rw [child_of_not_isHere hhere]
  rcases Path.join_name hname with hjoin | hjoin <;> rw [hjoin]
  · rw [String.toList_append]
    exact List.mem_append_left _ hc
  · rw [String.toList_append, String.toList_append]
    exact List.mem_append_left _ (List.mem_append_left _ hc)

theorem mem_child_of_mem_name (h : Reached path) (hname : '/' ∉ name.toList) {c : Char}
    (hc : c ∈ name.toList) : c ∈ (child path name).toList := by
  rcases h.short with rfl | hhere
  · rwa [child_of_isHere rfl]
  · rw [child_of_not_isHere hhere]
    rcases Path.join_name hname with hjoin | hjoin <;> rw [hjoin, String.toList_append] <;>
      exact List.mem_append_right _ hc

/-- A path is accepted where the path of a name below it is. -/
theorem accept_of_child (h : Reached path) (hname : '/' ∉ name.toList)
    (hc : Workspace.accept (child path name) = .ok ()) : Workspace.accept path = .ok () := by
  rcases h.short with rfl | hhere
  · rfl
  · obtain ⟨hnul, -⟩ := Workspace.accept_eq_ok_iff.mp hc
    exact Workspace.accept_eq_ok_iff.mpr
      ⟨fun hm => hnul (mem_child hhere hname hm), h.something⟩

/-- Where the path of a name leads to an entry, the path before it leads to a directory, and the
name is entered there. -/
theorem exists_of_entry_child (h : Reached path) (hname : '/' ∉ name.toList)
    (he : w.entry? (child path name) = some e) : ∃ links middle l,
      w.place path = .ok middle ∧ FileSystem.Way w.files links middle [name] l ∧
        w.files.find? l = some e := by
  obtain ⟨hsize, l, hc, hl⟩ := Workspace.entry?_eq_some_iff.mp he
  obtain ⟨haccept, honward⟩ := Workspace.canonical_iff_onward.mp hc
  rw [Workspace.onward_child_iff h.something hname] at honward
  obtain ⟨links, middle, hpath, hlast⟩ := Workspace.exists_of_onward_name honward
  have hcanonical : w.canonical path = .ok middle :=
    Workspace.canonical_iff_onward.mpr ⟨accept_of_child h hname haccept, hpath⟩
  have hshort : ¬pathLimit < path.utf8ByteSize := by
    rcases size_child h hname with ⟨rfl, -⟩ | hsizes
    · decide
    · omega
  exact ⟨links, middle, l, Workspace.place_eq_ok_iff.mpr ⟨hshort, hcanonical⟩, hlast, hl⟩

theorem isDirectory_of_place {l : Location} (h : w.place path = .ok l)
    (hl : w.files.find? l = some .directory) : w.isDirectory path = true := by
  have he : w.entry? path = some .directory := by
    unfold Workspace.entry?
    rw [h]
    exact hl
  exact decide_eq_true he

theorem isDirectory_of_entry_child (h : Reached path) (hname : '/' ∉ name.toList)
    (he : w.entry? (child path name) = some e) : w.isDirectory path = true := by
  obtain ⟨links, middle, l, hplace, hlast, -⟩ := exists_of_entry_child h hname he
  exact isDirectory_of_place hplace hlast.directory

/-! ## The names in a directory -/

theorem names_of_place {l : Location} (h : w.place path = .ok l)
    (hl : w.files.find? l = some .directory) : names w path = w.files.names l := by
  unfold names
  rw [h]
  exact if_pos hl

theorem mem_names_of_entry_child (h : Reached path) (hname : Path.IsName name)
    (he : w.entry? (child path name) = some e) : name ∈ names w path := by
  obtain ⟨links, middle, l, hplace, hlast, -⟩ := exists_of_entry_child h hname.whole he
  obtain ⟨reached, henter⟩ := hlast.exists_enter
  obtain ⟨e', he'⟩ := FileSystem.exists_entry_of_enter henter hname.something hname.down
  rw [names_of_place hplace hlast.directory, FileSystem.mem_names_iff]
  have hne : middle ++ [name] ≠ [] := List.append_ne_nil_of_right_ne_nil _ (List.cons_ne_nil _ _)
  exact ⟨e', FileSystem.exists_of_find? he' hne⟩

theorem names_cases (w : Workspace) (path : String) :
    (∃ l, names w path = w.files.names l) ∨ names w path = [] := by
  unfold names
  split
  · split_ifs
    · exact Or.inl ⟨_, rfl⟩
    · exact Or.inr rfl
  · exact Or.inr rfl

theorem isName_of_names (hw : w.files.Proper) (h : name ∈ names w path) : Path.IsName name := by
  rcases names_cases w path with ⟨l, hl⟩ | hl
  · rw [hl] at h
    exact hw.isName h
  · rw [hl] at h
    cases h

theorem names_pairwise (w : Workspace) (path : String) : (names w path).Pairwise (· < ·) := by
  rcases names_cases w path with ⟨l, hl⟩ | hl <;> rw [hl]
  · exact w.files.names_sorted l
  · exact .nil

/-- The dot names lead to directories only. -/
theorem not_isFile_dots (hw : w.files.Proper) (h : path ≠ "") (hdot : name = ".." ∨ name = ".") :
    w.isFile (Path.join path name) = false := by
  have hname : '/' ∉ name.toList := by rcases hdot with rfl | rfl <;> decide
  rw [Bool.eq_false_iff, Ne, Workspace.isFile_iff]
  rintro ⟨octets, he⟩
  obtain ⟨-, l, hc, hl⟩ := Workspace.entry?_eq_some_iff.mp he
  obtain ⟨-, honward⟩ := Workspace.canonical_iff_onward.mp hc
  rw [Workspace.onward_join_iff h hname] at honward
  obtain ⟨links, middle, -, hlast⟩ := Workspace.exists_of_onward_name honward
  have hd := hlast.directory
  have hdirectory : w.files.find? l = some .directory := by
    have henter := FileSystem.enter_of_directory hd name
    rcases hdot with rfl | rfl
    · cases hlast with
      | place he hw' =>
        cases henter.symm.trans he
        cases hw'
        exact hw.directory_parent hd
      | link he => cases henter.symm.trans he
    · cases ((FileSystem.way_nothing_iff rfl).mp hlast).2
      exact hd
  cases hdirectory.symm.trans hl

end Glob

end SourceBundle
