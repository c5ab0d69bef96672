import Mathlib.Data.List.Basic
import Mathlib.Data.Set.Function

/-! # Emission in post-order

The plain recursive definition, as a relation between the states before and after: whoever is met
for the first time is marked, then everything it needs is emitted in order, then it is appended
itself. Nothing is assumed about what is needed; a recursion that would never end relates no
states.
-/
namespace SourceBundle.PostOrder

structure State (α : Type) where
  marked : List α := []
  order : List α := []
deriving DecidableEq, Repr

namespace State
variable {α β : Type}

def mark (s : State α) (x : α) : State α := { s with marked := x :: s.marked }

def append (s : State α) (x : α) : State α := { s with order := s.order ++ [x] }

def map (f : α → β) (s : State α) : State β := ⟨s.marked.map f, s.order.map f⟩

theorem map_mark (f : α → β) (s : State α) (x : α) : (s.mark x).map f = (s.map f).mark (f x) := rfl

theorem map_append (f : α → β) (s : State α) (x : α) :
    (s.append x).map f = (s.map f).append (f x) := by
  simp [map, append]

end State

/-- Emitting the members of a list, one after the other, leads from one state to another. -/
inductive Emits {α : Type} (needs : α → List α) : State α → List α → State α → Prop
  | nil (s : State α) : Emits needs s [] s
  /-- Whoever is marked is passed over. -/
  | skip (s : State α) (x : α) (xs : List α) (t : State α) (hx : x ∈ s.marked)
      (ht : Emits needs s xs t) : Emits needs s (x :: xs) t
  | enter (s : State α) (x : α) (xs : List α) (t u : State α) (hx : x ∉ s.marked)
      (ht : Emits needs (s.mark x) (needs x) t) (hu : Emits needs (t.append x) xs u) :
    Emits needs s (x :: xs) u

/-- What emitting a list does to the marks: none is lost, the whole list gets one, and whoever
gets one has all that it needs marked too. -/
structure Marks {α : Type} (needs : α → List α) (s : State α) (xs : List α) (t : State α) :
    Prop where
  grows : s.marked ⊆ t.marked
  covers : xs ⊆ t.marked
  closes : ∀ y ∈ t.marked, y ∈ s.marked ∨ needs y ⊆ t.marked

variable {α : Type} {needs : α → List α} {s t u : State α} {x : α} {xs ys : List α}

namespace Emits

theorem deterministic (h : Emits needs s xs t) (h' : Emits needs s xs u) : t = u := by
  induction h generalizing u with
  | nil s =>
    cases h'
    rfl
  | skip s x xs t hx _ ih =>
    cases h' with
    | skip _ _ _ _ _ hu => exact ih hu
    | enter _ _ _ _ _ hn => exact absurd hx hn
  | enter s x xs t v hx _ _ iht ihv =>
    cases h' with
    | skip _ _ _ _ hm => exact absurd hm hx
    | enter _ _ _ t' _ _ ht hu =>
      obtain rfl := iht ht
      exact ihv hu

theorem of_append (h : Emits needs s (xs ++ ys) u) :
    ∃ t, Emits needs s xs t ∧ Emits needs t ys u := by
  induction xs generalizing s with
  | nil => exact ⟨s, .nil s, h⟩
  | cons x xs ih =>
    cases h with
    | skip _ _ _ _ hx h =>
      obtain ⟨t, ht, hu⟩ := ih h
      exact ⟨t, .skip s x xs t hx ht, hu⟩
    | enter _ _ _ v _ hx hv h =>
      obtain ⟨t, ht, hu⟩ := ih h
      exact ⟨t, .enter s x xs v t hx hv ht, hu⟩

theorem marks (h : Emits needs s xs t) : Marks needs s xs t := by
  induction h with
  | nil s => exact ⟨List.Subset.refl _, List.nil_subset _, fun y hy => Or.inl hy⟩
  | skip s x xs t hx _ ih =>
    exact ⟨ih.grows, List.cons_subset.mpr ⟨ih.grows hx, ih.covers⟩, ih.closes⟩
  | enter s x xs t u _ _ _ hn hr =>
    have hx : x ∈ u.marked := hr.grows (hn.grows List.mem_cons_self)
    have hs : s.marked ⊆ u.marked := fun y hy =>
      hr.grows (hn.grows (List.mem_cons_of_mem x hy))
    refine ⟨hs, List.cons_subset.mpr ⟨hx, hr.covers⟩, ?_⟩
    intro y hy
    rcases hr.closes y hy with hy | hy
    · rcases hn.closes y hy with hy | hy
      · rcases List.mem_cons.mp hy with rfl | hy
        · exact Or.inr fun z hz => hr.grows (hn.covers hz)
        · exact Or.inl hy
      · exact Or.inr fun z hz => hr.grows (hy hz)
    · exact Or.inr hy

/-- What has been emitted stays in front. -/
theorem order_grows (h : Emits needs s xs t) : s.order <+: t.order := by
  induction h with
  | nil s => exact List.prefix_refl _
  | skip s x xs t _ _ ih => exact ih
  | enter s x xs t u _ _ _ hn hr =>
    have hx : t.order <+: (t.append x).order := List.prefix_append t.order [x]
    exact hn.trans (hx.trans hr)

theorem mem_marked_append (h : Emits needs (s.mark x) (needs x) t) : x ∈ (t.append x).marked :=
  h.marks.grows List.mem_cons_self

/-! ## Repeats and marked ones leave no trace -/

theorem eq_of_subset (h : Emits needs s xs t) (hs : xs ⊆ s.marked) : t = s := by
  induction xs with
  | nil =>
    cases h
    rfl
  | cons x xs ih =>
    obtain ⟨hx, hxs⟩ := List.cons_subset.mp hs
    cases h with
    | skip _ _ _ _ _ h => exact ih h hxs
    | enter _ _ _ _ _ hn => exact absurd hx hn

variable [DecidableEq α]

theorem of_filter_ne (hx : x ∈ s.marked) (h : Emits needs s (xs.filter (· ≠ x)) t) :
    Emits needs s xs t := by
  induction xs generalizing s with
  | nil => exact h
  | cons y xs ih =>
    by_cases hy : y = x
    · subst hy
      rw [List.filter_cons_of_neg (by simp)] at h
      exact .skip s y xs t hx (ih hx h)
    · rw [List.filter_cons_of_pos (by simpa using hy)] at h
      cases h with
      | skip _ _ _ _ hm h => exact .skip s y xs t hm (ih hx h)
      | enter _ _ _ u _ hm hu h =>
        have hxu : x ∈ u.marked := hu.marks.grows (List.mem_cons_of_mem y hx)
        exact .enter s y xs u t hm hu (ih hxu h)

theorem of_eraseDups [BEq α] [LawfulBEq α] (h : Emits needs s xs.eraseDups t) :
    Emits needs s xs t := by
  induction hn : xs.length using Nat.strong_induction_on generalizing xs s with
  | _ n ih =>
    cases xs with
    | nil => exact h
    | cons x xs =>
      have hl : (xs.filter (· ≠ x)).length < n := by
        have := List.length_filter_le (· ≠ x) xs
        simp only [List.length_cons] at hn
        omega
      have hf : xs.filter (fun y => !y == x) = xs.filter (· ≠ x) := by
        apply List.filter_congr
        intro y _
        by_cases hy : y = x <;> simp [hy]
      rw [List.eraseDups_cons, hf] at h
      cases h with
      | skip _ _ _ _ hx h => exact .skip s x xs t hx (of_filter_ne hx (ih _ hl h rfl))
      | enter _ _ _ u _ hx hu h =>
        exact .enter s x xs u t hx hu (of_filter_ne hu.mem_marked_append (ih _ hl h rfl))

/-- It makes no difference to leave out self references and repeats. -/
theorem of_needs_eraseDups {needs' : α → List α}
    (hn : ∀ x, needs x = ((needs' x).filter (· ≠ x)).eraseDups) (h : Emits needs s xs t) :
    Emits needs' s xs t := by
  induction h with
  | nil s => exact .nil s
  | skip s x xs t hx _ ih => exact .skip s x xs t hx ih
  | enter s x xs t u hx _ _ ih hr =>
    rw [hn] at ih
    exact .enter s x xs t u hx (of_filter_ne List.mem_cons_self (of_eraseDups ih)) hr

end Emits

/-! ## Renaming -/

/-- Emission commutes with a renaming that keeps apart the members of a set closed under
needing. -/
theorem Emits.map {β : Type} {needs' : β → List β} {f : α → β} {S : Set α}
    (hf : Set.InjOn f S) (hn : ∀ x ∈ S, needs' (f x) = (needs x).map f)
    (hS : ∀ x ∈ S, ∀ y ∈ needs x, y ∈ S) (hs : ∀ x ∈ s.marked, x ∈ S) (hxs : ∀ x ∈ xs, x ∈ S)
    (h : Emits needs s xs t) : Emits needs' (s.map f) (xs.map f) (t.map f) := by
  have both : (∀ x ∈ t.marked, x ∈ S) ∧ Emits needs' (s.map f) (xs.map f) (t.map f) := by
    induction h with
    | nil s => exact ⟨hs, .nil _⟩
    | skip s x xs t hx _ ih =>
      obtain ⟨ht, he⟩ := ih hs fun y hy => hxs y (List.mem_cons_of_mem x hy)
      exact ⟨ht, .skip _ _ _ _ (List.mem_map_of_mem hx) he⟩
    | enter s x xs t u hx _ _ iht ihu =>
      have hxS : x ∈ S := hxs x List.mem_cons_self
      have hm : f x ∉ (s.map f).marked := by
        intro hm
        obtain ⟨y, hy, he⟩ := List.mem_map.mp hm
        exact hx (hf (hs y hy) hxS he ▸ hy)
      have hmark : ∀ y ∈ (s.mark x).marked, y ∈ S := by
        intro y hy
        rcases List.mem_cons.mp hy with rfl | hy
        · exact hxS
        · exact hs y hy
      obtain ⟨ht, he⟩ := iht hmark (hS x hxS)
      obtain ⟨hu, hr⟩ := ihu ht fun y hy => hxs y (List.mem_cons_of_mem x hy)
      rw [State.map_mark, ← hn x hxS] at he
      rw [State.map_append] at hr
      exact ⟨hu, .enter _ _ _ _ _ hm he hr⟩
  exact both.2

end SourceBundle.PostOrder
