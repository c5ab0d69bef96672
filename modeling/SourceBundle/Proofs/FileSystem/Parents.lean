import SourceBundle.Proofs.FileSystem.Create

/-! # The directories above a path that leads somewhere

Each part of such a path leads somewhere too. So a directory that is to be made above it exists, and
nothing is made.
-/
namespace SourceBundle

variable {w : Workspace} {fs : FileSystem} {l m : Location} {path parent : String} {links : Nat}

namespace FileSystem

/-- A way over pieces in two parts passes through a place between them. -/
theorem Way.exists_middle {front back : List String} (h : Way fs links l (front ++ back) m) :
    ∃ left middle, Way fs links l front middle ∧ Way fs left middle back m := by
  generalize hp : front ++ back = pieces at h
  induction h generalizing front with
  | here links l =>
    obtain ⟨rfl, rfl⟩ := List.append_eq_nil_iff.mp hp
    exact ⟨links, l, .here links l, .here links l⟩
  | @place links l next m piece rest he hw ih =>
    rcases List.append_eq_cons_iff.mp hp with ⟨rfl, rfl⟩ | ⟨front, rfl, rfl⟩
    · exact ⟨links, l, .here links l, .place he hw⟩
    · obtain ⟨left, middle, hfront, hback⟩ := ih rfl
      exact ⟨left, middle, .place he hfront, hback⟩
  | @link links l m piece target rest he hw ih =>
    rcases List.append_eq_cons_iff.mp hp with ⟨rfl, rfl⟩ | ⟨front, rfl, rfl⟩
    · exact ⟨links + 1, l, .here (links + 1) l, .link he hw⟩
    · obtain ⟨left, middle, hfront, hback⟩ := ih (List.append_assoc _ front back)
      exact ⟨left, middle, .link he hfront, hback⟩

theorem Way.exists_enter {piece : String} {rest : List String}
    (h : Way fs links l (piece :: rest) m) : ∃ reached, fs.enter l piece = .ok reached := by
  cases h with
  | place he => exact ⟨_, he⟩
  | link he => exact ⟨_, he⟩

/-- A name that can be entered is the name of an entry. -/
theorem exists_entry_of_enter {piece : String} {reached : Reached}
    (h : fs.enter l piece = .ok reached) (hname : Path.namesNothing piece = false)
    (hup : piece ≠ "..") : ∃ e, fs.find? (l ++ [piece]) = some e := by
  rw [enter_of_directory (directory_of_enter h), hname, if_neg Bool.false_ne_true, if_neg hup] at h
  split_ifs at h
  cases he : fs.find? (l ++ [piece]) with
  | some e => exact ⟨e, rfl⟩
  | none =>
    rw [he] at h
    cases h

end FileSystem

namespace Workspace

open FileSystem (Way origin)

/-- The pieces that are followed before the last name, and the one after them. -/
theorem pieces_eq_lastName (path : String) : ∃ piece rest,
    Path.pieces path = (lastName path).1 ++ piece :: rest ∧
      ∀ name, (lastName path).2 = some name →
        piece = name ∧ Path.namesNothing piece = false ∧ piece ≠ ".." := by
  cases hlast : (lastName path).2 with
  | some name =>
    have heq : lastName path = ((lastName path).1, some name) := Prod.ext rfl hlast
    obtain ⟨empties, hpieces, -, hnothing, hup⟩ := pieces_of_lastName heq
    exact ⟨name, empties, hpieces, fun _ h => ⟨Option.some.inj h, hnothing, hup⟩⟩
  | none =>
    unfold lastName
    split
    · obtain ⟨piece, rest, hpieces⟩ := List.exists_cons_of_ne_nil (Path.pieces_ne_nil path)
      exact ⟨piece, rest, hpieces, fun _ h => by cases h⟩
    · rename_i piece before hdrop
      obtain ⟨dropped, hpieces, -, -⟩ := eq_append_of_dropWhile_reverse hdrop
      exact ⟨piece, dropped, hpieces, fun _ h => by cases h⟩

/-- Where a path leads somewhere, no directory is missing. -/
theorem createDirectory_of_canonical (h : w.canonical path = .ok l) :
    ∃ fault, w.createDirectory path = .error fault ∧ fault ≠ .notFound := by
  obtain ⟨ha, hway⟩ := canonical_eq_ok_iff.mp h
  obtain ⟨piece, rest, hpieces, hlast⟩ := pieces_eq_lastName path
  obtain ⟨left, middle, hbefore, hrest⟩ := (hpieces ▸ hway).exists_middle
  obtain ⟨reached, he⟩ := hrest.exists_enter
  have hdir := FileSystem.asDirectory_eq_ok_iff.mpr (FileSystem.directory_of_enter he)
  rw [createDirectory, ha]
  simp only [bind, Except.bind, pure, Except.pure, throw, throwThe, MonadExceptOf.throw]
  by_cases hpath : pathLimit < path.utf8ByteSize
  · exact ⟨.nameTooLong, by rw [if_pos hpath], Fault.noConfusion⟩
  · simp only [if_neg hpath, hbefore.walk_eq, hdir]
    cases hname : (lastName path).2 with
    | none => exact ⟨.alreadyExists, rfl, Fault.noConfusion⟩
    | some name =>
      obtain ⟨rfl, hnothing, hup⟩ := hlast name hname
      obtain ⟨e, hfind⟩ := FileSystem.exists_entry_of_enter he hnothing hup
      by_cases hlong : nameLimit < piece.utf8ByteSize
      · exact ⟨.nameTooLong, by simp only [if_pos hlong], Fault.noConfusion⟩
      · exact ⟨.alreadyExists, by simp only [if_neg hlong, hfind], Fault.noConfusion⟩

theorem accept_eq_ok_iff : accept path = .ok () ↔ '\x00' ∉ path.toList ∧ path ≠ "" := by
  unfold accept
  by_cases hnul : '\x00' ∈ path.toList
  · simp [hnul]
  · by_cases hempty : path = "" <;> simp [hnul, hempty]

/-- The path without its last name leads somewhere too. -/
theorem canonical_parent (h : w.canonical path = .ok l) (hp : Path.parent? path = some parent)
    (hne : parent ≠ "") : ∃ m, w.canonical parent = .ok m := by
  obtain ⟨ha, hway⟩ := canonical_eq_ok_iff.mp h
  rcases Path.pieces_of_parent? hp hne with ⟨rest, hpieces⟩ | ⟨rfl, -⟩
  · have horigin : origin w.current parent = origin w.current path := by
      rw [origin, origin, Path.isAbsolute_of_append hpieces hne]
    obtain ⟨left, middle, hfront, -⟩ := (hpieces ▸ hway).exists_middle
    refine ⟨middle, canonical_eq_ok_iff.mpr ⟨accept_eq_ok_iff.mpr ⟨fun hnul => ?_, hne⟩,
      horigin ▸ hfront⟩⟩
    obtain ⟨piece, hpiece, hnul⟩ := Path.exists_mem_pieces_iff.mpr ⟨hnul, by decide⟩
    have hpath : piece ∈ Path.pieces path := hpieces ▸ List.mem_append_left rest hpiece
    exact (accept_eq_ok_iff.mp ha).1 (Path.exists_mem_pieces_iff.mp ⟨piece, hpath, hnul⟩).1
  · exact ⟨[], canonical_eq_ok_iff.mpr
      ⟨rfl, way_empties (FileSystem.find?_nil w.files) (by decide)⟩⟩

theorem ancestors_eq_cons (path : String) : ∃ rest, Path.ancestors path = path :: rest := by
  unfold Path.ancestors
  cases path.length with
  | zero => exact ⟨[], rfl⟩
  | succ n => exact ⟨_, rfl⟩

/-- Nothing is made where the path leads somewhere. -/
theorem createDirectories_of_canonical (h : w.canonical path = .ok l) : ∃ fault,
    w.createDirectories path = (w.files, if w.isDirectory path then none else some fault) := by
  obtain ⟨rest, hancestors⟩ := ancestors_eq_cons path
  obtain ⟨fault, hfault, hfound⟩ := createDirectory_of_canonical h
  have hne := (accept_eq_ok_iff.mp (canonical_eq_ok_iff.mp h).1).2
  refine ⟨fault, ?_⟩
  rw [createDirectories, hancestors, createEach, if_neg hne, hfault]
  cases fault with
  | notFound => exact absurd rfl hfound
  | _ => rfl

end Workspace

end SourceBundle
