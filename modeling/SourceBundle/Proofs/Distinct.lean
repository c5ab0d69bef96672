import Mathlib.Data.List.Nodup
import Mathlib.Data.List.Pairwise

/-! # Lists without repeats

Erasing what has occurred before leaves each member once; texts that are sorted after that rise
strictly.
-/
namespace SourceBundle

variable {α : Type}

theorem nodup_eraseDups [BEq α] [LawfulBEq α] (xs : List α) : xs.eraseDups.Nodup := by
  -- The rest of a list is erased after a filter, so the induction is on the length.
  induction hn : xs.length using Nat.strongRecOn generalizing xs with
  | ind n ih =>
    cases xs with
    | nil => exact List.nodup_nil
    | cons x xs =>
      rw [List.eraseDups_cons, List.nodup_cons]
      refine ⟨by simp, ih _ ?_ _ rfl⟩
      rw [← hn]
      exact Nat.lt_succ_of_le (List.length_filter_le _ xs)

theorem mem_of_sorted_eraseDups [BEq α] [LawfulBEq α] {le : α → α → Bool} {xs : List α} {x : α} :
    x ∈ xs.eraseDups.mergeSort le ↔ x ∈ xs := by
  rw [List.mem_mergeSort, List.mem_eraseDups]

theorem pairwise_lt_sorted_eraseDups (xs : List String) :
    (xs.eraseDups.mergeSort fun a b => decide (a ≤ b)).Pairwise (· < ·) := by
  have hsorted : (xs.eraseDups.mergeSort fun a b => decide (a ≤ b)).Pairwise (· ≤ ·) := by
    refine (List.pairwise_mergeSort (fun a b c hab hbc => ?_) (fun a b => ?_) _).imp
      of_decide_eq_true
    · exact decide_eq_true (String.le_trans (of_decide_eq_true hab) (of_decide_eq_true hbc))
    · simpa using String.le_total a b
  have hnodup : (xs.eraseDups.mergeSort fun a b => decide (a ≤ b)).Nodup :=
    (List.mergeSort_perm _ _).nodup_iff.mpr (nodup_eraseDups xs)
  refine (hsorted.and hnodup).imp fun {a b} h => ?_
  by_contra hlt
  exact h.2 (String.le_antisymm h.1 (String.not_lt.mp hlt))

end SourceBundle
