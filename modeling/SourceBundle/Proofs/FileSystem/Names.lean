import Mathlib.Data.List.Sort
import SourceBundle.Proofs.Distinct
import SourceBundle.Proofs.FileSystem.Create

/-! # Names and the locations made of them

A name is a piece that goes down: it is not empty, no dot name, and holds no slash. Following a path
from a location made of names leads to one made of names, and such locations differ in their texts.
-/
namespace SourceBundle

/-- The piece goes down to an entry of a directory. -/
structure Path.IsName (piece : String) : Prop where
  something : Path.namesNothing piece = false
  down : piece ≠ ".."
  whole : '/' ∉ piece.toList

namespace Path.IsName

variable {piece : String}

theorem ne_empty (h : IsName piece) : piece ≠ "" := by
  rintro rfl
  exact Bool.false_ne_true h.something.symm

theorem ne_here (h : IsName piece) : piece ≠ "." := by
  rintro rfl
  exact Bool.false_ne_true h.something.symm

end Path.IsName

instance : DecidablePred Path.IsName := fun piece =>
  decidable_of_iff (Path.namesNothing piece = false ∧ piece ≠ ".." ∧ '/' ∉ piece.toList)
    ⟨fun ⟨h, h', h''⟩ => ⟨h, h', h''⟩, fun ⟨h, h', h''⟩ => ⟨h, h', h''⟩⟩

namespace Location

variable {l m : Location}

def Named (l : Location) : Prop := ∀ name ∈ l, Path.IsName name

instance : DecidablePred Named := fun l => inferInstanceAs (Decidable (∀ name ∈ l, _))

theorem Named.concat (hl : l.Named) {name : String} (hn : Path.IsName name) :
    Named (l ++ [name]) := by
  intro piece hm
  rcases List.mem_append.mp hm with hm | hm
  · exact hl piece hm
  · rwa [List.mem_singleton.mp hm]

theorem text_eq_intercalate (h : l ≠ []) : l.text = "/".intercalate ("" :: l) := by
  rw [text, if_neg h]
  clear h
  induction l with
  | nil => rfl
  | cons name l ih =>
    rw [List.map_cons, String.join_cons, ih]
    cases l with
    | nil => simp [String.intercalate_cons_cons]
    | cons next l => simp [String.intercalate_cons_cons, String.append_assoc]

theorem Named.pieces_text (hl : l.Named) (h : l ≠ []) : Path.pieces l.text = "" :: l := by
  rw [text_eq_intercalate h]
  refine Path.pieces_intercalate (fun piece hp => ?_) (List.cons_ne_nil _ _)
  rcases List.mem_cons.mp hp with rfl | hp
  · exact List.not_mem_nil
  · exact (hl piece hp).whole

theorem Named.text_ne_root (hl : l.Named) (h : l ≠ []) : l.text ≠ text [] := by
  intro he
  have hpieces : "" :: l = ["", ""] := by rw [← hl.pieces_text h, he]; rfl
  have hname := hl "" (by rw [(List.cons.inj hpieces).2]; exact List.mem_singleton_self "")
  exact hname.ne_empty rfl

theorem Named.text_inj (hl : l.Named) (hm : m.Named) (h : l.text = m.text) : l = m := by
  by_cases hnil : l = []
  · subst hnil
    by_contra hne
    exact hm.text_ne_root (Ne.symm hne) h.symm
  · by_cases hnil' : m = []
    · subst hnil'
      exact absurd h (hl.text_ne_root hnil)
    · have hpieces := hl.pieces_text hnil
      rw [h, hm.pieces_text hnil'] at hpieces
      exact (List.cons.inj hpieces).2.symm

end Location

namespace FileSystem

variable {fs : FileSystem} {l m next : Location} {piece : String} {pieces : List String}
  {links : Nat}

/-- Entering a piece stays, goes up or goes down by a name. -/
theorem named_of_enter (hl : l.Named) (hpiece : '/' ∉ piece.toList)
    (h : fs.enter l piece = .ok (.place next)) : next.Named := by
  rw [enter_of_directory (directory_of_enter h)] at h
  split_ifs at h with hnothing hup hlong
  · cases h
    exact hl
  · cases h
    exact fun name hn => hl name (List.dropLast_subset l hn)
  · split at h
    · cases h
    · cases h
      exact hl.concat ⟨Bool.eq_false_iff.mpr hnothing, hup, hpiece⟩
    · cases h

theorem named_origin (hl : l.Named) (path : String) : (origin l path).Named := by
  unfold origin
  split
  · exact fun _ hn => absurd hn List.not_mem_nil
  · exact hl

theorem Way.named (h : Way fs links l pieces m) (hl : l.Named)
    (hp : ∀ piece ∈ pieces, '/' ∉ piece.toList) : m.Named := by
  induction h with
  | here links l => exact hl
  | place he _ ih =>
    obtain ⟨hpiece, hrest⟩ := List.forall_mem_cons.mp hp
    exact ih (named_of_enter hl hpiece he) hrest
  | link he _ ih =>
    refine ih (named_origin hl _) fun piece hm => ?_
    rcases List.mem_append.mp hm with hm | hm
    · exact Path.slash_not_mem hm
    · exact hp piece (List.mem_cons_of_mem _ hm)

/-! ## The names in a directory -/

/-- Every entry lies in a directory, under a name. -/
structure Proper (fs : FileSystem) : Prop where
  named : ∀ e ∈ fs.entries, e.1.Named
  inside : ∀ e ∈ fs.entries, fs.find? e.1.parent = some .directory

theorem exists_of_find? {e : Entry} (h : fs.find? l = some e) (hl : l ≠ []) :
    (l, e) ∈ fs.entries := by
  rw [find?, if_neg hl, List.lookup_eq_some_iff] at h
  obtain ⟨before, after, hentries, -⟩ := h
  rw [hentries]
  exact List.mem_append_right _ List.mem_cons_self

theorem mem_names_iff {name : String} :
    name ∈ fs.names l ↔ ∃ e, (l ++ [name], e) ∈ fs.entries := by
  rw [names, mem_of_sorted_eraseDups, List.mem_filterMap]
  constructor
  · rintro ⟨⟨m, e⟩, hm, hname⟩
    split_ifs at hname with hl
    obtain ⟨front, rfl⟩ := List.getLast?_eq_some_iff.mp hname
    rw [List.dropLast_concat] at hl
    exact ⟨e, hl ▸ hm⟩
  · rintro ⟨e, he⟩
    exact ⟨_, he, by simp⟩

theorem names_sorted (fs : FileSystem) (l : Location) : (fs.names l).Pairwise (· < ·) :=
  pairwise_lt_sorted_eraseDups _

theorem names_eq_of_mem_iff {names : List String} (hs : names.Pairwise (· < ·))
    (h : ∀ name, name ∈ names ↔ ∃ e, (l ++ [name], e) ∈ fs.entries) : fs.names l = names :=
  List.Pairwise.eq_of_mem_iff (fs.names_sorted l) hs fun name => mem_names_iff.trans (h name).symm

namespace Proper

theorem isName (h : fs.Proper) {name : String} (hn : name ∈ fs.names l) : Path.IsName name := by
  obtain ⟨e, he⟩ := mem_names_iff.mp hn
  exact h.named _ he name (List.mem_append_right _ (List.mem_singleton_self name))

theorem directory_parent (h : fs.Proper) {e : Entry} (he : fs.find? l = some e) :
    fs.find? l.parent = some .directory := by
  by_cases hl : l = []
  · subst hl
    exact find?_nil fs
  · exact h.inside _ (exists_of_find? he hl)

end Proper

end FileSystem

theorem Workspace.named_of_canonical {w : Workspace} {path : String} {l : Location}
    (hw : w.current.Named) (h : w.canonical path = .ok l) : l.Named := by
  obtain ⟨-, hway⟩ := canonical_eq_ok_iff.mp h
  exact hway.named (FileSystem.named_origin hw path) fun piece => Path.slash_not_mem

end SourceBundle
