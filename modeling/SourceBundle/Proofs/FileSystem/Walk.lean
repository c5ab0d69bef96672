import Mathlib.Data.List.Basic
import Mathlib.Tactic.SplitIfs
import SourceBundle.FileSystem.Update
import SourceBundle.Proofs.Path

/-! # Ways through a file system that changes

A way that leads somewhere looks only at entries that exist, and not into files. So it leads there
still when entries are added, when files get other octets, and when a file is put where it ends.
-/
namespace SourceBundle

namespace FileSystem

variable {fs gs : FileSystem} {l m target : Location} {e : Entry} {piece : String}
  {pieces rest : List String} {links : Nat} {reached : Reached}

/-! ## Entries -/

theorem find?_nil (fs : FileSystem) : fs.find? [] = some .directory := if_pos rfl

theorem ne_nil_of_find? (h : fs.find? l ≠ some .directory) : l ≠ [] := by
  rintro rfl
  exact h (find?_nil fs)

theorem lookup_filter_ne (entries : List (Location × Entry)) (h : m ≠ l) :
    (entries.filter (·.1 ≠ l)).lookup m = entries.lookup m := by
  induction entries with
  | nil => rfl
  | cons entry entries ih =>
    obtain ⟨k, e⟩ := entry
    by_cases hk : k = l
    · have hmk : (m == k) = false := beq_eq_false_iff_ne.mpr (hk ▸ h)
      rw [List.filter_cons_of_neg (by simpa using hk), List.lookup_cons, hmk, ih]
    · rw [List.filter_cons_of_pos (by simpa using hk), List.lookup_cons, List.lookup_cons, ih]

theorem find?_insert_self (hl : l ≠ []) : (fs.insert l e).find? l = some e := by
  simp [find?, insert, hl]

theorem find?_insert_of_ne (h : m ≠ l) : (fs.insert l e).find? m = fs.find? m := by
  have hml : (m == l) = false := beq_eq_false_iff_ne.mpr h
  simp only [find?, insert, List.lookup_cons, hml, lookup_filter_ne fs.entries h]

theorem find?_insert_child (fs : FileSystem) (l : Location) (name : String) (e : Entry) :
    (fs.insert (l ++ [name]) e).find? (l ++ [name]) = some e :=
  find?_insert_self (by simp)

theorem find?_insert_parent (fs : FileSystem) (l : Location) (name : String) (e : Entry) :
    (fs.insert (l ++ [name]) e).find? l = fs.find? l :=
  find?_insert_of_ne (by simp)

theorem insert_insert (fs : FileSystem) (l : Location) (e e' : Entry) :
    (fs.insert l e).insert l e' = fs.insert l e' := by
  simp [insert, List.filter_filter]

/-- Every entry of the first is in the second. -/
def Grows (fs gs : FileSystem) : Prop := ∀ l e, fs.find? l = some e → gs.find? l = some e

theorem Grows.refl (fs : FileSystem) : Grows fs fs := fun _ _ h => h

theorem Grows.trans {hs : FileSystem} (h : Grows fs gs) (h' : Grows gs hs) : Grows fs hs :=
  fun l e he => h' l e (h l e he)

/-- Every entry of the first is in the second, a file perhaps with other octets. -/
def Extends (fs gs : FileSystem) : Prop :=
  ∀ l e, fs.find? l = some e →
    gs.find? l = some e ∨ e.isFile = true ∧ ∃ octets, gs.find? l = some (.file octets)

theorem Grows.extends (h : Grows fs gs) : Extends fs gs := fun l e he => Or.inl (h l e he)

theorem grows_insert (h : fs.find? l = none) (e : Entry) : Grows fs (fs.insert l e) := by
  intro m e' hm
  have hne : m ≠ l := by
    rintro rfl
    rw [h] at hm
    cases hm
  rw [find?_insert_of_ne hne, hm]

/-! ## One piece -/

theorem asDirectory_eq_ok_iff : fs.asDirectory l = .ok () ↔ fs.find? l = some .directory := by
  unfold asDirectory
  split <;> simp_all

theorem directory_of_isOk (h : (fs.asDirectory l).isOk = true) : fs.find? l = some .directory := by
  rw [← asDirectory_eq_ok_iff]
  cases hd : fs.asDirectory l with
  | ok _ => rfl
  | error fault =>
    rw [hd] at h
    cases h

theorem enter_of_directory (h : fs.find? l = some .directory) (piece : String) :
    fs.enter l piece =
      if Path.namesNothing piece then .ok (.place l)
      else if piece = ".." then .ok (.place l.parent)
      else if nameLimit < piece.utf8ByteSize then .error .nameTooLong
      else match fs.find? (l ++ [piece]) with
        | some (.link target) => .ok (.link target)
        | some _ => .ok (.place (l ++ [piece]))
        | none => .error .notFound := by
  have hd := asDirectory_eq_ok_iff.mpr h
  unfold enter
  rw [hd]
  rfl

theorem directory_of_enter (h : fs.enter l piece = .ok reached) :
    fs.find? l = some .directory := by
  refine directory_of_isOk ?_
  unfold enter at h
  cases hd : fs.asDirectory l with
  | ok _ => rfl
  | error fault =>
    rw [hd] at h
    cases h

theorem Extends.directory (h : Extends fs gs) (hl : fs.find? l = some .directory) :
    gs.find? l = some .directory :=
  (h l _ hl).resolve_right fun hfile => Bool.false_ne_true hfile.1

/-- Where a piece leads does not depend on what the files hold. -/
theorem enter_mono (h : Extends fs gs) (he : fs.enter l piece = .ok reached) :
    gs.enter l piece = .ok reached := by
  have hd := directory_of_enter he
  rw [enter_of_directory hd] at he
  rw [enter_of_directory (h.directory hd)]
  split_ifs at he ⊢ with h₁ h₂ h₃
  · exact he
  · exact he
  · cases hp : fs.find? (l ++ [piece]) with
    | none =>
      rw [hp] at he
      cases he
    | some e =>
      rw [hp] at he
      rcases h _ _ hp with heq | ⟨hfile, octets, heq⟩
      · rw [heq]
        exact he
      · rw [heq]
        cases e with
        | file => exact he
        | directory => cases hfile
        | link => cases hfile

theorem enter_congr (hl : gs.find? l = fs.find? l)
    (hp : gs.find? (l ++ [piece]) = fs.find? (l ++ [piece])) :
    gs.enter l piece = fs.enter l piece := by
  simp only [enter, asDirectory, hl, hp]

/-- Where a piece can lead that is not a link. -/
theorem enter_place (h : fs.enter l piece = .ok (.place m)) :
    m = l ∨ m = l.parent ∨ m = l ++ [piece] ∧ ∀ t, fs.find? m ≠ some (.link t) := by
  rw [enter_of_directory (directory_of_enter h)] at h
  split_ifs at h with h₁ h₂ h₃
  · cases h
    exact Or.inl rfl
  · cases h
    exact Or.inr (Or.inl rfl)
  · split at h
    · cases h
    · rename_i e hlink hp
      cases h
      refine Or.inr (Or.inr ⟨rfl, fun t ht => hlink t ?_⟩)
      rw [hp] at ht
      exact Option.some.inj ht
    · cases h

theorem enter_link {t : String} (h : fs.enter l piece = .ok (.link t)) :
    fs.find? (l ++ [piece]) = some (.link t) := by
  rw [enter_of_directory (directory_of_enter h)] at h
  split_ifs at h with h₁ h₂ h₃
  · cases h
  · cases h
  · split at h
    · rename_i target hp
      cases h
      exact hp
    · cases h
    · cases h

/-- A piece that leads nowhere in a directory names what is missing there. -/
theorem enter_notFound (hd : fs.find? l = some .directory)
    (h : fs.enter l piece = .error .notFound) : fs.find? (l ++ [piece]) = none := by
  rw [enter_of_directory hd] at h
  split_ifs at h with h₁ h₂ h₃
  · cases h
  · split at h
    · cases h
    · cases h
    · assumption

/-! ## Ways to what exists -/

/-- The pieces lead from one place to another, over so many links at most. -/
inductive Way (fs : FileSystem) : Nat → Location → List String → Location → Prop
  | here (links : Nat) (l : Location) : Way fs links l [] l
  | place {links : Nat} {l next m : Location} {piece : String} {rest : List String}
      (he : fs.enter l piece = .ok (.place next)) (hw : Way fs links next rest m) :
      Way fs links l (piece :: rest) m
  | link {links : Nat} {l m : Location} {piece target : String} {rest : List String}
      (he : fs.enter l piece = .ok (.link target))
      (hw : Way fs links (origin l target) (Path.pieces target ++ rest) m) :
      Way fs (links + 1) l (piece :: rest) m

theorem way_of_walk (hw : fs.walk links l pieces = .ok m) : Way fs links l pieces m := by
  induction links, l, pieces using walk.induct fs with
  | case1 links l =>
    rw [walk] at hw
    cases hw
    exact .here links m
  | case2 links l piece rest fault he =>
    rw [walk, he] at hw
    cases hw
  | case3 links l piece rest next he ih =>
    rw [walk, he] at hw
    exact .place he (ih hw)
  | case4 l piece rest target he =>
    rw [walk, he] at hw
    cases hw
  | case5 l piece rest target he links ih =>
    rw [walk, he] at hw
    exact .link he (ih hw)

theorem Way.walk_eq (h : Way fs links l pieces m) : fs.walk links l pieces = .ok m := by
  induction h with
  | here links l => rw [walk]
  | place he _ ih => rw [walk, he, ← ih]
  | link he _ ih => rw [walk, he, ← ih]

theorem Way.mono (h : Way fs links l pieces m) (hg : Extends fs gs) : Way gs links l pieces m := by
  induction h with
  | here links l => exact .here links l
  | place he _ ih => exact .place (enter_mono hg he) ih
  | link he _ ih => exact .link (enter_mono hg he) ih

/-- A way can go on from where it leads, over the links that are left. -/
theorem Way.exists_append (h : Way fs links l pieces m) :
    ∃ left, ∀ more last, Way fs left m more last → Way fs links l (pieces ++ more) last := by
  induction h with
  | here links l => exact ⟨links, fun _ _ h => h⟩
  | place he _ ih =>
    obtain ⟨left, hleft⟩ := ih
    exact ⟨left, fun more last h => .place he (hleft more last h)⟩
  | link he _ ih =>
    obtain ⟨left, hleft⟩ := ih
    refine ⟨left, fun more last h => .link he ?_⟩
    have hmore := hleft more last h
    rwa [List.append_assoc] at hmore

/-! ## Ways to what may be missing -/

/-- The pieces lead to a place; only the last of them may name something that is missing. -/
inductive Leads (fs : FileSystem) : Nat → Location → List String → Location → Prop
  | here (links : Nat) (l : Location) : Leads fs links l [] l
  | last {links : Nat} {l : Location} {piece : String} (hd : fs.find? l = some .directory)
      (he : fs.enter l piece = .error .notFound) : Leads fs links l [piece] (l ++ [piece])
  | place {links : Nat} {l next m : Location} {piece : String} {rest : List String}
      (he : fs.enter l piece = .ok (.place next)) (hw : Leads fs links next rest m) :
      Leads fs links l (piece :: rest) m
  | link {links : Nat} {l m : Location} {piece target : String} {rest : List String}
      (he : fs.enter l piece = .ok (.link target))
      (hw : Leads fs links (origin l target) (Path.pieces target ++ rest) m) :
      Leads fs (links + 1) l (piece :: rest) m

theorem leads_of_locate (h : fs.locate links l pieces = .ok m) : Leads fs links l pieces m := by
  induction links, l, pieces using locate.induct fs with
  | case1 links l =>
    rw [locate] at h
    cases h
    exact .here links m
  | case2 links l piece rest he hlast =>
    rw [locate, he] at h
    simp only [if_pos hlast] at h
    cases h
    rw [Bool.and_eq_true, List.isEmpty_iff] at hlast
    obtain ⟨rfl, hd⟩ := hlast
    exact .last (directory_of_isOk hd) he
  | case3 links l piece rest he hlast =>
    rw [locate, he] at h
    simp only [if_neg hlast] at h
    cases h
  | case4 links l piece rest fault hne he =>
    rw [locate, he] at h
    cases fault with
    | notFound => exact (hne rfl).elim
    | _ => cases h
  | case5 links l piece rest next he ih =>
    rw [locate, he] at h
    exact .place he (ih h)
  | case6 l piece rest target he =>
    rw [locate, he] at h
    cases h
  | case7 l piece rest target he links ih =>
    rw [locate, he] at h
    exact .link he (ih h)

theorem Way.locate_eq (h : Way fs links l pieces m) : fs.locate links l pieces = .ok m := by
  induction h with
  | here links l => rw [locate]
  | place he _ ih => rw [locate, he, ← ih]
  | link he _ ih => rw [locate, he, ← ih]

/-! ## Putting a file where a way ends -/

/-- A way that ends at a link started there, or below it. -/
theorem Leads.start_of_link {t : String} (h : Leads fs links l pieces m)
    (ht : fs.find? m = some (.link t)) : pieces = [] ∧ l = m ∨ m <+: l ∧ l ≠ m := by
  have hdirectory : ∀ l, fs.find? l = some .directory → l ≠ m := by
    rintro l hl rfl
    rw [hl] at ht
    cases ht
  induction h with
  | here links l => exact Or.inl ⟨rfl, rfl⟩
  | last hd he =>
    rw [enter_notFound hd he] at ht
    cases ht
  | @place links l next m piece rest he hw ih =>
    have hnext : m <+: next := by
      rcases ih ht hdirectory with ⟨-, rfl⟩ | ⟨hp, -⟩
      · exact List.prefix_rfl
      · exact hp
    refine Or.inr ⟨?_, hdirectory l (directory_of_enter he)⟩
    rcases enter_place he with rfl | rfl | ⟨rfl, hlink⟩
    · exact hnext
    · exact hnext.trans (List.dropLast_prefix l)
    · rcases List.prefix_concat_iff.mp hnext with rfl | hp
      · exact absurd ht (hlink t)
      · exact hp
  | @link links l m piece target rest he hw ih =>
    right
    rcases ih ht hdirectory with ⟨hnil, -⟩ | ⟨hp, hne⟩
    · exact absurd (List.append_eq_nil_iff.mp hnil).1 (Path.pieces_ne_nil target)
    · unfold origin at hp hne
      split at hp
      · rename_i habsolute
        rw [if_pos habsolute] at hne
        exact absurd (List.prefix_nil.mp hp).symm hne
      · exact ⟨hp, hdirectory l (directory_of_enter he)⟩

variable {octets : Text.Utf8.Octets}

theorem enter_insert_of_ne (hl : l ≠ m) (hp : l ++ [piece] ≠ m) :
    (fs.insert m e).enter l piece = fs.enter l piece :=
  enter_congr (find?_insert_of_ne hl) (find?_insert_of_ne hp)

/-- Where nothing was, or a file, a file is in the way as little. -/
theorem enter_insert_place {next : Location} (hm : fs.find? m ≠ some .directory)
    (he : fs.enter l piece = .ok (.place next)) :
    (fs.insert m (.file octets)).enter l piece = .ok (.place next) := by
  have hd := directory_of_enter he
  have hne : l ≠ m := by
    rintro rfl
    exact hm hd
  by_cases hp : l ++ [piece] = m
  · subst hp
    rw [enter_of_directory hd] at he
    rw [enter_of_directory ((find?_insert_parent fs l piece _).trans hd)]
    split_ifs at he ⊢ with h₁ h₂ h₃
    · exact he
    · exact he
    · rw [find?_insert_child]
      split at he
      · cases he
      · exact he
      · cases he
  · rw [enter_insert_of_ne hne hp, he]

theorem enter_insert_last (hd : fs.find? l = some .directory)
    (he : fs.enter l piece = .error .notFound) :
    (fs.insert (l ++ [piece]) (.file octets)).enter l piece = .ok (.place (l ++ [piece])) := by
  rw [enter_of_directory hd] at he
  rw [enter_of_directory ((find?_insert_parent fs l piece _).trans hd)]
  split_ifs at he ⊢ with h₁ h₂ h₃
  · cases he
  · rw [find?_insert_child]

/-- A file put where a way ends is found on that way. -/
theorem Leads.way_insert (h : Leads fs links l pieces m) (hm : fs.find? m ≠ some .directory) :
    Way (fs.insert m (.file octets)) links l pieces m := by
  induction h with
  | here links l => exact .here links l
  | last hd he => exact .place (enter_insert_last hd he) (.here _ _)
  | place he _ ih => exact .place (enter_insert_place hm he) (ih hm)
  | @link links l m piece target rest he hw ih =>
    -- The link itself is not replaced: the way would have to start where it ends.
    have hp : l ++ [piece] ≠ m := by
      rintro rfl
      rcases hw.start_of_link (enter_link he) with ⟨hnil, -⟩ | ⟨horigin, -⟩
      · exact Path.pieces_ne_nil target (List.append_eq_nil_iff.mp hnil).1
      · have hlen := horigin.length_le
        unfold origin at hlen
        rw [List.length_append, List.length_singleton] at hlen
        split at hlen
        · exact absurd hlen (Nat.not_succ_le_zero l.length)
        · exact absurd hlen (Nat.not_succ_le_self l.length)
    have hl : l ≠ m := by
      rintro rfl
      exact hm (directory_of_enter he)
    exact .link ((enter_insert_of_ne hl hp).trans he) (ih hm)

end FileSystem

end SourceBundle
