import Mathlib.Data.List.Infix
import Mathlib.Tactic.SplitIfs
import SourceBundle.Path

/-! # Paths and their pieces

A path is its pieces with slashes in between, and no piece holds a slash. What stands before the
last name is a path that begins with the same pieces.
-/
namespace SourceBundle

namespace Text

variable {α : Type} [DecidableEq α] {mark c : α} {text piece : List α} {pieces : List (List α)}

theorem split_ne_nil (mark : α) (text : List α) : split mark text ≠ [] := by
  cases text with
  | nil => exact List.cons_ne_nil _ _
  | cons c rest =>
    rw [split]
    split_ifs
    · exact List.cons_ne_nil _ _
    · split <;> exact List.cons_ne_nil _ _

/-- A symbol that is no mark joins the first piece of what follows. -/
theorem split_cons_of_ne (hc : c ≠ mark) (text : List α) :
    ∃ piece pieces, split mark text = piece :: pieces ∧
      split mark (c :: text) = (c :: piece) :: pieces := by
  cases hs : split mark text with
  | nil => exact absurd hs (split_ne_nil mark text)
  | cons piece pieces => exact ⟨piece, pieces, rfl, by rw [split, if_neg hc, hs]⟩

theorem split_eq_splitOn (mark : α) (text : List α) : split mark text = text.splitOn mark := by
  induction text with
  | nil => rfl
  | cons c text ih =>
    rw [List.splitOn, List.splitOnP_cons_eq_if_modifyHead, ← List.splitOn, ← ih]
    by_cases hc : c = mark
    · simp [split, hc]
    · obtain ⟨piece, pieces, hs, hcons⟩ := split_cons_of_ne hc text
      rw [hcons, hs, if_neg (by simpa using hc)]
      rfl

theorem intercalate_split (mark : α) (text : List α) :
    [mark].intercalate (split mark text) = text := by
  rw [split_eq_splitOn, List.intercalate_splitOn]

theorem split_intercalate (h : ∀ piece ∈ pieces, mark ∉ piece) (hne : pieces ≠ []) :
    split mark ([mark].intercalate pieces) = pieces := by
  rw [split_eq_splitOn, List.splitOn_intercalate mark h hne]

/-- The pieces hold what the text holds, without the marks. -/
theorem exists_mem_split_iff : (∃ piece ∈ split mark text, c ∈ piece) ↔ c ∈ text ∧ c ≠ mark := by
  induction text with
  | nil => simp [split]
  | cons d text ih =>
    by_cases hd : d = mark
    · subst hd
      have hsplit : split d (d :: text) = [] :: split d text := by rw [split, if_pos rfl]
      rw [hsplit, List.exists_mem_cons_iff, ih, List.mem_cons]
      simp only [List.not_mem_nil, false_or]
      exact ⟨fun h => ⟨Or.inr h.1, h.2⟩, fun h => ⟨h.1.resolve_left h.2, h.2⟩⟩
    · obtain ⟨piece, pieces, hs, hcons⟩ := split_cons_of_ne hd text
      rw [hs, List.exists_mem_cons_iff] at ih
      rw [hcons, List.exists_mem_cons_iff, List.mem_cons, or_assoc, ih, List.mem_cons]
      constructor
      · rintro (rfl | ⟨hm, hc⟩)
        · exact ⟨Or.inl rfl, hd⟩
        · exact ⟨Or.inr hm, hc⟩
      · rintro ⟨rfl | hm, hc⟩
        · exact Or.inl rfl
        · exact Or.inr ⟨hm, hc⟩

end Text

namespace Path

variable {path parent piece : String} {body : List String} {c : Char}

theorem pieces_ne_nil (path : String) : pieces path ≠ [] :=
  fun h => Text.split_ne_nil _ _ (List.map_eq_nil_iff.mp h)

theorem exists_mem_pieces_iff :
    (∃ piece ∈ pieces path, c ∈ piece.toList) ↔ c ∈ path.toList ∧ c ≠ '/' := by
  rw [← Text.exists_mem_split_iff]
  simp [pieces]

theorem slash_not_mem (h : piece ∈ pieces path) : '/' ∉ piece.toList :=
  fun hs => (exists_mem_pieces_iff.mp ⟨piece, h, hs⟩).2 rfl

theorem intercalate_pieces (path : String) : "/".intercalate (pieces path) = path := by
  rw [← String.toList_inj, String.toList_intercalate, pieces, List.map_map]
  have hmap : (Text.split '/' path.toList).map (String.toList ∘ String.ofList) =
      Text.split '/' path.toList := by
    simp [Function.comp_def]
  rw [hmap]
  exact Text.intercalate_split '/' path.toList

theorem pieces_intercalate (h : ∀ piece ∈ body, '/' ∉ piece.toList) (hne : body ≠ []) :
    pieces ("/".intercalate body) = body := by
  have hsplit : Text.split '/' (['/'].intercalate (body.map String.toList)) =
      body.map String.toList :=
    Text.split_intercalate (by simpa using h) (by simpa using hne)
  have hof : (body.map String.toList).map String.ofList = body := by
    simp [Function.comp_def]
  rw [pieces, String.toList_intercalate]
  exact (congrArg (List.map String.ofList) hsplit).trans hof

/-- A path starts at the root if its first piece is empty and not its only one. -/
theorem isAbsolute_iff_pieces :
    isAbsolute path = true ↔ ∃ piece rest, pieces path = "" :: piece :: rest := by
  unfold isAbsolute pieces
  cases path.toList with
  | nil => simp [Text.split]
  | cons c text =>
    by_cases hc : c = '/'
    · subst hc
      obtain ⟨piece, rest, hs⟩ := List.exists_cons_of_ne_nil (Text.split_ne_nil '/' text)
      simp [Text.split, hs]
    · obtain ⟨piece, rest, -, hs⟩ := Text.split_cons_of_ne hc text
      simp [hs, hc]

theorem eq_of_pieces {other : String} (h : pieces path = pieces other) : path = other := by
  rw [← intercalate_pieces path, h, intercalate_pieces]

theorem pieces_empty : pieces "" = [""] := rfl

theorem isAbsolute_of_append {rest : List String} (h : pieces path = pieces parent ++ rest)
    (hne : parent ≠ "") : isAbsolute parent = isAbsolute path := by
  rw [Bool.eq_iff_iff, isAbsolute_iff_pieces, isAbsolute_iff_pieces, h]
  constructor
  · rintro ⟨first, more, hp⟩
    exact ⟨first, more ++ rest, by rw [hp]; rfl⟩
  · rintro ⟨first, more, hp⟩
    cases hparent : pieces parent with
    | nil => exact absurd hparent (pieces_ne_nil parent)
    | cons piece pieces =>
      rw [hparent] at hp
      obtain ⟨rfl, hp⟩ := List.cons_eq_cons.mp hp
      cases pieces with
      | nil => exact absurd (eq_of_pieces (hparent.trans pieces_empty.symm)) hne
      | cons piece pieces => exact ⟨piece, pieces, rfl⟩

/-! ## The path without its last name -/

/-- The piece that an anchor is written as. -/
def Anchor.written : Anchor → List String
  | root => [""]
  | here => ["."]
  | none => []

theorem pieces_eq_anchored (h : path ≠ "") :
    pieces path = (anchored path).1.written ++ (anchored path).2 := by
  unfold anchored
  split
  · rename_i body hp
    have habsolute : isAbsolute path = true := by
      cases body with
      | nil => exact absurd (eq_of_pieces (hp.trans pieces_empty.symm)) h
      | cons piece rest => exact isAbsolute_iff_pieces.mpr ⟨piece, rest, hp⟩
    rw [if_pos habsolute, hp]
    rfl
  · rename_i body hp
    exact hp
  · rfl

theorem isAbsolute_of_anchored (h : (anchored path).1 = .root) : isAbsolute path = true := by
  unfold anchored at h
  split at h
  · split_ifs at h with habsolute
    exact habsolute
  · cases h
  · cases h

theorem write_eq_intercalate (anchor : Anchor) (hne : body ≠ []) :
    write anchor body = "/".intercalate (anchor.written ++ body) := by
  obtain ⟨piece, rest, rfl⟩ := List.exists_cons_of_ne_nil hne
  cases anchor with
  | root => simp [write, Anchor.written, String.intercalate_cons_cons]
  | here => simp [write, Anchor.written, String.intercalate_cons_cons]
  | none => rfl

/-- Reading what has been written; the root by itself has an empty piece behind its slash too. -/
theorem pieces_write {anchor : Anchor} (h : ∀ piece ∈ body, '/' ∉ piece.toList)
    (hne : write anchor body ≠ "") : pieces (write anchor body) = anchor.written ++ body ∨
      anchor = .root ∧ write anchor body = "/" := by
  by_cases hbody : body = []
  · subst hbody
    cases anchor with
    | root => exact Or.inr ⟨rfl, rfl⟩
    | here => exact Or.inl rfl
    | none => exact absurd rfl hne
  · left
    rw [write_eq_intercalate anchor hbody]
    refine pieces_intercalate (fun piece hp => ?_) (List.append_ne_nil_of_right_ne_nil _ hbody)
    rcases List.mem_append.mp hp with hfront | hp
    · cases anchor <;> simp_all [Anchor.written]
    · exact h piece hp

theorem prefix_settle (body : List String) : settle body <+: body := by
  rw [settle, ← List.reverse_suffix, List.reverse_reverse]
  exact List.dropWhile_suffix _

/-- What stands before the last name begins with the same pieces, or is the root. -/
theorem pieces_of_parent? (h : parent? path = some parent) (hne : parent ≠ "") :
    (∃ rest, pieces path = pieces parent ++ rest) ∨ parent = "/" ∧ isAbsolute path = true := by
  have hpath : path ≠ "" := by
    rintro rfl
    cases h
  have hpieces := pieces_eq_anchored hpath
  simp only [parent?] at h
  split at h
  · rename_i last before hlast
    obtain rfl := Option.some.inj h
    have hsettled : settle (anchored path).2 = before.reverse ++ [last] := by
      rw [← List.reverse_reverse (settle _), hlast, List.reverse_cons]
    obtain ⟨rest, hrest⟩ : settle before.reverse <+: (anchored path).2 :=
      ((prefix_settle _).trans (List.prefix_append _ [last])).trans (hsettled ▸ prefix_settle _)
    have hslash : ∀ piece ∈ settle before.reverse, '/' ∉ piece.toList := by
      intro piece hp
      have hmem : piece ∈ pieces path := by
        rw [hpieces, ← hrest]
        exact List.mem_append_right _ (List.mem_append_left _ hp)
      exact slash_not_mem hmem
    rcases pieces_write hslash hne with hw | ⟨hroot, hw⟩
    · exact Or.inl ⟨rest, by rw [hw, List.append_assoc, hrest, hpieces]⟩
    · exact Or.inr ⟨hw, isAbsolute_of_anchored hroot⟩
  · split_ifs at h
    exact absurd (Option.some.inj h).symm hne

end Path

end SourceBundle
