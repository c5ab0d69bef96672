import SourceBundle.Proofs.Glob.Child
import SourceBundle.Proofs.Glob.Steps

/-! # What lies below a path

The path of what lies below a directory leads where the path of the directory and the names lead,
and each place on the way is a directory. The path of the directory is written in the same way, by
its own components.
-/
namespace SourceBundle.Glob

open FileSystem (Way)

variable {w : Workspace} {path name : String} {names more : List String} {e : Entry}

/-- The path of what lies below by these names. -/
def below (path : String) (names : List String) : String := names.foldl child path

@[simp] theorem below_nil (path : String) : below path [] = path := rfl

theorem below_cons (path name : String) (names : List String) :
    below path (name :: names) = below (child path name) names := rfl

theorem below_concat (path : String) (names : List String) (name : String) :
    below path (names ++ [name]) = child (below path names) name := by
  rw [below, List.foldl_append]
  rfl

theorem below_append (path : String) (names more : List String) :
    below path (names ++ more) = below (below path names) more := List.foldl_append

/-- Name by name, no path on the way is empty: a search could not go on from it. -/
inductive Lasting : String → List String → Prop
  | nil {path : String} : Lasting path []
  | cons {path name : String} {names : List String} (hwhole : '/' ∉ name.toList)
      (hne : child path name ≠ "") (h : Lasting (child path name) names) : Lasting path (name :: names)

theorem lasting_cons_iff : Lasting path (name :: names) ↔
    '/' ∉ name.toList ∧ child path name ≠ "" ∧ Lasting (child path name) names :=
  ⟨fun | .cons hwhole hne h => ⟨hwhole, hne, h⟩, fun ⟨hwhole, hne, h⟩ => .cons hwhole hne h⟩

theorem lasting_append_iff :
    Lasting path (names ++ more) ↔ Lasting path names ∧ Lasting (below path names) more := by
  induction names generalizing path with
  | nil => simp [Lasting.nil]
  | cons name names ih => simp only [List.cons_append, lasting_cons_iff, ih, and_assoc, below_cons]

theorem lasting_of_named (h : Reached path) (hn : Location.Named names) : Lasting path names := by
  induction names generalizing path with
  | nil => exact .nil
  | cons name names ih =>
    obtain ⟨hname, hn⟩ := List.forall_mem_cons.mp hn
    have hne := child_ne_empty h hname.ne_empty hname.whole
    exact .cons hname.whole hne (ih (reached_child h hname.whole hne) hn)

theorem reached_below (h : Reached path) (hn : Lasting path names) :
    Reached (below path names) := by
  induction names generalizing path with
  | nil => exact h
  | cons name names ih =>
    obtain ⟨hwhole, hne, hn⟩ := lasting_cons_iff.mp hn
    rw [below_cons]
    exact ih (reached_child h hwhole hne) hn

theorem onward_below_iff {l : Location} (h : Reached path) (hn : Lasting path names) :
    w.Onward (below path names) more l ↔ w.Onward path (names ++ more) l := by
  induction names generalizing path with
  | nil => rfl
  | cons name names ih =>
    obtain ⟨hwhole, hne, hn⟩ := lasting_cons_iff.mp hn
    rw [below_cons, List.cons_append, ← Workspace.onward_child_iff h.something hwhole]
    exact ih (reached_child h hwhole hne) hn

/-- An entry below a path makes the path one of a directory. -/
theorem isDirectory_of_entry_below (h : Reached path) (hn : Lasting path (name :: names))
    (he : w.entry? (below path (name :: names)) = some e) : w.isDirectory path = true := by
  induction names generalizing path name with
  | nil => exact isDirectory_of_entry_child h (lasting_cons_iff.mp hn).1 he
  | cons next names ih =>
    obtain ⟨hwhole, hne, hn⟩ := lasting_cons_iff.mp hn
    rw [below_cons] at he
    have hnext := ih (reached_child h hwhole hne) hn he
    exact isDirectory_of_entry_child h hwhole (Workspace.isDirectory_iff.mp hnext)

theorem size_below (h : path ≠ "") (hhere : isHere path = false) (hn : Location.Named names) :
    path.utf8ByteSize + names.length ≤ (below path names).utf8ByteSize := by
  induction names generalizing path with
  | nil => exact Nat.le_refl _
  | cons name names ih =>
    obtain ⟨hname, hn⟩ := List.forall_mem_cons.mp hn
    have hreached : Reached path := ⟨h, Or.inr hhere⟩
    have hchild : isHere (child path name) = false := by
      rw [child_of_not_isHere hhere]
      exact not_isHere_join h hhere hname.whole
    have hbelow := ih (child_ne_empty hreached hname.ne_empty hname.whole) hchild hn
    have hpos := size_pos hname.ne_empty
    rw [List.length_cons, below_cons]
    rcases size_child hreached hname.whole with ⟨rfl, -⟩ | hle
    · cases hhere
    · omega

/-- A path has as many names at most as octets. -/
theorem length_le_size (h : Reached path) (hn : Location.Named names) :
    names.length ≤ (below path names).utf8ByteSize := by
  rcases h.short with rfl | hhere
  · cases names with
    | nil => exact Nat.zero_le _
    | cons name names =>
      obtain ⟨hname, hn⟩ := List.forall_mem_cons.mp hn
      have hchild : child "." name = name := child_of_isHere rfl
      have hbelow := size_below hname.ne_empty (not_isHere_of_whole hname.whole hname.ne_here) hn
      have hpos := size_pos hname.ne_empty
      rw [below_cons, hchild, List.length_cons]
      omega
  · exact Nat.le_of_add_left_le (size_below h.something hhere hn)

theorem length_le_of_entry (h : Reached path) (hn : Location.Named names)
    (he : w.entry? (below path names) = some e) : names.length ≤ pathLimit := by
  obtain ⟨hsize, -⟩ := Workspace.entry?_eq_some_iff.mp he
  have hlength := length_le_size h hn
  omega

theorem lasting_of_not_isHere (h : path ≠ "") (hhere : isHere path = false)
    (hn : ∀ name ∈ names, '/' ∉ name.toList) : Lasting path names := by
  induction names generalizing path with
  | nil => exact .nil
  | cons name names ih =>
    obtain ⟨hname, hn⟩ := List.forall_mem_cons.mp hn
    have hne : child path name ≠ "" := by
      rw [child_of_not_isHere hhere]
      rcases Path.join_name hname with hjoin | hjoin <;> rw [hjoin] <;> simp [h]
    have hchild : isHere (child path name) = false := by
      rw [child_of_not_isHere hhere]
      exact not_isHere_join h hhere hname
    exact .cons hname hne (ih hne hchild hn)

/-- From the current directory, an empty name right behind the dots would write the empty path. -/
theorem lasting_here (hn : ∀ name ∈ names, '/' ∉ name.toList)
    (hempty : (names.dropWhile (· = ".")).head? ≠ some "") : Lasting "." names := by
  induction names with
  | nil => exact .nil
  | cons name names ih =>
    obtain ⟨hname, hrest⟩ := List.forall_mem_cons.mp hn
    have hchild : child "." name = name := child_of_isHere rfl
    by_cases hdot : name = "."
    · subst hdot
      rw [List.dropWhile_cons_of_pos (by decide)] at hempty
      exact .cons hname (by decide) (ih hrest hempty)
    · rw [List.dropWhile_cons_of_neg (by simpa using hdot)] at hempty
      have hne : name ≠ "" := fun h => hempty (congrArg some h)
      refine .cons hname ?_ ?_ <;> rw [hchild]
      · exact hne
      · exact lasting_of_not_isHere hne (not_isHere_of_whole hname hdot) hrest

/-- A path that is accepted is made of names without U+0000. -/
theorem accept_of_below (h : Reached path) (hn : Lasting path names)
    (ha : Workspace.accept (below path names) = .ok ()) :
    Workspace.accept path = .ok () ∧ ∀ name ∈ names, '\x00' ∉ name.toList := by
  induction names generalizing path with
  | nil => exact ⟨ha, fun _ hm => absurd hm List.not_mem_nil⟩
  | cons name names ih =>
    obtain ⟨hwhole, hne, hn⟩ := lasting_cons_iff.mp hn
    rw [below_cons] at ha
    obtain ⟨hchild, hnames⟩ := ih (reached_child h hwhole hne) hn ha
    refine ⟨accept_of_child h hwhole hchild, List.forall_mem_cons.mpr ⟨fun hm => ?_, hnames⟩⟩
    exact (Workspace.accept_eq_ok_iff.mp hchild).1 (mem_child_of_mem_name h hwhole hm)

/-! ## The path of a directory -/

/-- The path of a directory as a search writes it. -/
def written (directory : String) : String := below (root directory) (steps directory)

/-- The path of the directory can stand in a pattern for itself: no character of it stands for
others, and no empty piece stands right behind the dots in front. -/
structure Verbatim (directory : String) : Prop where
  plain : Plain directory.toList
  solid : Path.isAbsolute directory = true ∨
    ((steps directory).dropWhile (· = ".")).head? ≠ some ""

variable {directory : String}

theorem not_isHere_slash : isHere "/" = false := by decide

theorem reached_root (directory : String) : Reached (root directory) := by
  unfold root
  split_ifs
  · exact ⟨by decide, Or.inr not_isHere_slash⟩
  · exact ⟨by decide, Or.inl rfl⟩

theorem Verbatim.lasting (h : Verbatim directory) : Lasting (root directory) (steps directory) := by
  have hwhole : ∀ step ∈ steps directory, '/' ∉ step.toList := fun _ => whole_of_mem_steps
  unfold root
  rcases h.solid with habsolute | hempty
  · rw [if_pos habsolute]
    exact lasting_of_not_isHere (by decide) not_isHere_slash hwhole
  · split_ifs
    · exact lasting_of_not_isHere (by decide) not_isHere_slash hwhole
    · exact lasting_here hwhole hempty

theorem Verbatim.reached (h : Verbatim directory) : Reached (written directory) :=
  reached_below (reached_root directory) h.lasting

theorem isAbsolute_of_named (hne : names ≠ []) (hn : Location.Named names) :
    Path.isAbsolute ("/".intercalate names) = false := by
  rw [Bool.eq_false_iff, Ne, Path.isAbsolute_iff_pieces,
    Path.pieces_intercalate (fun name hm => (hn name hm).whole) hne]
  rintro ⟨piece, rest, rfl⟩
  exact (hn "" List.mem_cons_self).ne_empty rfl

/-- What the names lead to below the written path, they lead to in the directory. -/
theorem onward_of_written {xs : List String} {path : String} {l : Location}
    (habsolute : Path.isAbsolute path = Path.isAbsolute directory)
    (hp : Path.pieces path = (if Path.isAbsolute directory then [""] else []) ++ xs)
    (h : w.Onward (root directory) xs l) : w.Onward path [] l := by
  unfold Workspace.Onward FileSystem.origin at h ⊢
  rw [habsolute, hp, List.append_nil]
  unfold root at h
  cases hd : Path.isAbsolute directory with
  | true =>
    rw [hd, if_pos rfl] at h
    have hway : Way w.files linkLimit [] ("" :: "" :: xs) l := h
    exact ((FileSystem.way_nothing_iff rfl).mp hway).2
  | false =>
    rw [hd, if_neg Bool.false_ne_true] at h
    have hway : Way w.files linkLimit w.current ("." :: xs) l := h
    exact ((FileSystem.way_nothing_iff rfl).mp hway).2

/-- The written path leads where the path of the directory and the names lead. -/
theorem canonical_below_written (hd : Verbatim directory) (hne : names ≠ [])
    (hn : Location.Named names) {l : Location}
    (hc : w.canonical (below (written directory) names) = .ok l) :
    w.canonical (Path.join directory ("/".intercalate names)) = .ok l := by
  obtain ⟨haccept, honward⟩ := Workspace.canonical_iff_onward.mp hc
  have hlasting : Lasting (root directory) (steps directory ++ names) :=
    lasting_append_iff.mpr ⟨hd.lasting, lasting_of_named hd.reached hn⟩
  rw [written, ← below_append] at honward haccept
  obtain ⟨-, hnul⟩ := accept_of_below (reached_root directory) hlasting haccept
  rw [onward_below_iff (reached_root directory) hlasting, List.append_nil] at honward
  have hrel := isAbsolute_of_named hne hn
  have hpieces : Path.pieces (Path.join directory ("/".intercalate names)) =
      (if Path.isAbsolute directory then [""] else []) ++ (steps directory ++ names) := by
    rw [pieces_join hrel, Path.pieces_intercalate (fun name hm => (hn name hm).whole) hne,
      List.append_assoc]
  refine Workspace.canonical_iff_onward.mpr ⟨Workspace.accept_of_pieces (fun piece hm => ?_) ?_,
    onward_of_written (Path.isAbsolute_join_relative hrel) hpieces honward⟩
  · rw [hpieces] at hm
    rcases List.mem_append.mp hm with hm | hm
    · split_ifs at hm
      · rw [List.mem_singleton.mp hm]
        decide
      · cases hm
    · exact hnul piece hm
  · obtain ⟨name, rest, rfl⟩ := List.exists_cons_of_ne_nil hne
    refine ⟨name, ?_, (hn name List.mem_cons_self).ne_empty⟩
    rw [hpieces]
    exact List.mem_append_right _ (List.mem_append_right _ List.mem_cons_self)

end SourceBundle.Glob
