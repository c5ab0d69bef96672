import SourceBundle.Glob.Basic
import SourceBundle.Proofs.Path.Join

/-! # The steps to a directory

A pattern in a directory is the path of the directory and what stands behind it. So its components
are the steps to the directory and those of what stands behind it.
-/
namespace SourceBundle.Glob

variable {text : List Char}

/-- No character of the text stands for others. -/
def Plain (text : List Char) : Prop := ∀ c ∈ text, c ≠ '?' ∧ c ≠ '*' ∧ c ≠ '['

instance (text : List Char) : Decidable (Plain text) := List.decidableBAll _ text

/-! ## Components -/

theorem components_of_split {after : List Char} {pieces : List (List Char)}
    (h : Text.split '/' text = pieces ++ Text.split '/' after) :
    components text = pieces ++ components after := by
  unfold components
  rw [h, List.reverse_append]
  cases hr : (Text.split '/' after).reverse with
  | nil => exact absurd (List.reverse_eq_nil_iff.mp hr) (Text.split_ne_nil _ _)
  | cons piece rest => cases piece <;> simp

theorem components_nil : components [] = [] := rfl

theorem components_ne_nil (h : text ≠ []) : components text ≠ [] := by
  intro hc
  unfold components at hc
  split at hc
  · rename_i rest hr
    rw [List.reverse_eq_nil_iff] at hc
    subst hc
    have hsplit : Text.split '/' text = [[]] := by
      rw [← List.reverse_reverse (Text.split '/' text), hr]
      rfl
    have htext := Text.intercalate_split '/' text
    rw [hsplit] at htext
    exact h htext.symm
  · exact Text.split_ne_nil _ _ (List.reverse_eq_nil_iff.mp (List.reverse_eq_nil_iff.mp hc))

theorem mem_split_of_components {piece : List Char} (h : piece ∈ components text) :
    piece ∈ Text.split '/' text := by
  unfold components at h
  split at h
  · rename_i rest hr
    have hmem : piece ∈ (Text.split '/' text).reverse := by
      rw [hr]
      exact List.mem_cons_of_mem _ (List.mem_reverse.mp h)
    exact List.mem_reverse.mp hmem
  · exact List.mem_reverse.mp (List.mem_reverse.mp h)

theorem Plain.components {piece : List Char} (h : Plain text) (hp : piece ∈ components text) :
    Plain piece := fun _ hc =>
  h _ (Text.exists_mem_split_iff.mp ⟨piece, mem_split_of_components hp, hc⟩).1

/-! ## A pattern in a directory -/

/-- Where the search for a path starts. -/
def root (path : String) : String := if Path.isAbsolute path then "/" else "."

/-- The text behind the slash of the root, or the whole one. -/
def body (path : String) : List Char :=
  if Path.isAbsolute path then path.toList.drop 1 else path.toList

/-- The components that the search goes through on its way to a directory. -/
def steps (directory : String) : List String :=
  (components (body (Path.join directory ""))).map String.ofList

variable {directory input : String}

theorem body_join (hrel : Path.isAbsolute input = false) :
    body (Path.join directory input) = body (Path.join directory "") ++ input.toList := by
  have hslash : Path.isAbsolute (Path.join directory "") = Path.isAbsolute directory :=
    Path.isAbsolute_join_relative Path.isAbsolute_empty
  unfold body
  rw [Path.isAbsolute_join_relative hrel, hslash, Path.toList_join hrel]
  split_ifs with habsolute
  · rw [← hslash, Path.isAbsolute, decide_eq_true_eq] at habsolute
    obtain ⟨text, ht⟩ := List.head?_eq_some_iff.mp habsolute
    rw [ht]
    rfl
  · rfl

theorem body_join_empty_fresh (directory : String) : body (Path.join directory "") = [] ∨
    ∃ front, body (Path.join directory "") = front ++ ['/'] := by
  unfold body
  rcases Path.join_empty_fresh directory with h | h
  · simp [h]
  · obtain ⟨front, hf⟩ := List.getLast?_eq_some_iff.mp h
    rw [hf]
    split_ifs
    · cases front with
      | nil => exact Or.inl rfl
      | cons c front => exact Or.inr ⟨front, rfl⟩
    · exact Or.inr ⟨front, rfl⟩

theorem split_body_join (directory : String) (text : List Char) :
    Text.split '/' (body (Path.join directory "") ++ text) =
      components (body (Path.join directory "")) ++ Text.split '/' text := by
  rcases body_join_empty_fresh directory with h | ⟨front, h⟩ <;> rw [h]
  · rfl
  · have hfront : components (front ++ ['/']) = Text.split '/' front := by
      rw [components_of_split (Text.split_append '/' front []), components_nil, List.append_nil]
    rw [hfront, List.append_assoc, List.singleton_append, Text.split_append]

theorem components_join (hrel : Path.isAbsolute input = false) :
    components (body (Path.join directory input)) =
      components (body (Path.join directory "")) ++ components input.toList := by
  rw [body_join hrel]
  exact components_of_split (split_body_join directory _)

theorem whole_of_mem_steps {step : String} (h : step ∈ steps directory) : '/' ∉ step.toList := by
  obtain ⟨piece, hp, rfl⟩ := List.mem_map.mp h
  rw [String.toList_ofList]
  exact fun hm => (Text.exists_mem_split_iff.mp ⟨piece, mem_split_of_components hp, hm⟩).2 rfl

/-- The pieces of a path in a directory: the empty one of the root, the steps, and its own. -/
theorem pieces_join (hrel : Path.isAbsolute input = false) :
    Path.pieces (Path.join directory input) =
      (if Path.isAbsolute directory then [""] else []) ++ steps directory ++ Path.pieces input := by
  have hpieces : Path.pieces (Path.join directory input) =
      (if Path.isAbsolute directory then [""] else []) ++
        (Text.split '/' (body (Path.join directory input))).map String.ofList := by
    unfold Path.pieces body
    rw [Path.isAbsolute_join_relative hrel]
    split_ifs with habsolute
    · rw [← Path.isAbsolute_join_relative hrel, Path.isAbsolute, decide_eq_true_eq] at habsolute
      obtain ⟨text, ht⟩ := List.head?_eq_some_iff.mp habsolute
      simp [ht, Text.split]
    · rfl
  rw [hpieces, body_join hrel, split_body_join, List.map_append, List.append_assoc]
  rfl

/-! ## Plain paths -/

theorem plain_join_empty (h : Plain directory.toList) : Plain (Path.join directory "").toList := by
  intro c hc
  rcases Path.mem_join_empty hc with hc | rfl
  · exact h c hc
  · decide

theorem plain_body {path : String} (h : Plain path.toList) : Plain (body path) := by
  unfold body
  split_ifs
  · exact fun c hc => h c (List.mem_of_mem_drop hc)
  · exact h

end SourceBundle.Glob
