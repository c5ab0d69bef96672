import SourceBundle.Proofs.Path

/-! # Joining paths

A relative path joined to a directory adds its pieces to those of the directory.
-/
namespace SourceBundle

theorem Text.split_append {α : Type} [DecidableEq α] (mark : α) (front after : List α) :
    split mark (front ++ mark :: after) = split mark front ++ split mark after := by
  simp only [split_eq_splitOn, List.splitOn_append_cons_self]

namespace Path

variable {path directory name : String}

/-! ## A relative path -/

theorem isAbsolute_empty : isAbsolute "" = false := rfl

theorem toList_join (hrel : isAbsolute path = false) :
    (join directory path).toList = (join directory "").toList ++ path.toList := by
  simp only [join, hrel, isAbsolute_empty, Bool.false_eq_true, if_false]
  split_ifs <;> simp

/-- What stands before the path is empty or ends in a slash. -/
theorem join_empty_fresh (directory : String) : (join directory "").toList = [] ∨
    (join directory "").toList.getLast? = some '/' := by
  simp only [join, isAbsolute_empty, Bool.false_eq_true, if_false]
  split_ifs with h
  · simpa using h
  · right
    simp

theorem isAbsolute_join_relative (hrel : isAbsolute path = false) :
    isAbsolute (join directory path) = isAbsolute directory := by
  unfold join
  rw [hrel, if_neg Bool.false_ne_true]
  unfold isAbsolute at hrel ⊢
  cases hd : directory.toList with
  | nil => simpa [hd] using hrel
  | cons c text =>
    dsimp only
    split_ifs <;> simp [hd]

theorem mem_join_empty {c : Char} (h : c ∈ (join directory "").toList) :
    c ∈ directory.toList ∨ c = '/' := by
  unfold join at h
  rw [isAbsolute_empty, if_neg Bool.false_ne_true] at h
  dsimp only at h
  split_ifs at h
  · exact Or.inl (by simpa using h)
  · simpa using h

/-! ## A single name -/

theorem pieces_of_whole (h : '/' ∉ name.toList) : pieces name = [name] := by
  have hname : ∀ piece ∈ [name], '/' ∉ piece.toList := by simpa using h
  exact pieces_intercalate hname (List.cons_ne_nil _ _)

theorem isAbsolute_of_whole (h : '/' ∉ name.toList) : isAbsolute name = false := by
  rw [isAbsolute, decide_eq_false_iff_not]
  exact fun hs => h (List.mem_of_mem_head? hs)

theorem join_name (hname : '/' ∉ name.toList) :
    join path name = path ++ name ∨ join path name = path ++ "/" ++ name := by
  unfold join
  rw [isAbsolute_of_whole hname, if_neg Bool.false_ne_true]
  dsimp only
  split_ifs
  · exact Or.inl rfl
  · exact Or.inr rfl

theorem pieces_of_append {front after : List Char} (h : path.toList = front ++ '/' :: after) :
    pieces path = (Text.split '/' front).map String.ofList ++
      (Text.split '/' after).map String.ofList := by
  rw [pieces, h, ← List.map_append, Text.split_append]

/-- A name joined to a path is one piece more; an empty piece at the end gives way to it. -/
theorem pieces_join_name (hp : path ≠ "") (hname : '/' ∉ name.toList) :
    ∃ front, pieces (join path name) = front ++ [name] ∧
      (pieces path = front ∨ pieces path = front ++ [""]) := by
  have hsplit : (Text.split '/' name.toList).map String.ofList = [name] := pieces_of_whole hname
  unfold join
  rw [isAbsolute_of_whole hname, if_neg Bool.false_ne_true]
  dsimp only
  split_ifs with hend
  · have hne : path.toList ≠ [] := by simpa using hp
    have hlast : path.toList.getLast? = some '/' := by simpa [hne] using hend
    obtain ⟨front, hf⟩ := List.getLast?_eq_some_iff.mp hlast
    have hjoin : (path ++ name).toList = front ++ '/' :: name.toList := by simp [hf]
    refine ⟨(Text.split '/' front).map String.ofList, ?_, Or.inr (pieces_of_append hf)⟩
    rw [pieces_of_append hjoin, hsplit]
  · have hjoin : (path ++ "/" ++ name).toList = path.toList ++ '/' :: name.toList := by simp
    refine ⟨pieces path, ?_, Or.inl rfl⟩
    rw [pieces_of_append hjoin, hsplit]
    rfl

end Path

end SourceBundle
