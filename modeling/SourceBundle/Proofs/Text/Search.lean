import Mathlib.Data.List.Infix
import SourceBundle.Text.Search

/-! # Where a word occurs

The position found is the first at which the word stands. A word whose first symbol does not come
again in it cannot overlap another occurrence of itself.
-/
namespace SourceBundle.Text

variable {α : Type} {word text body before after : List α} {n : Nat}

def OccursAt (word text : List α) (n : Nat) : Prop := word <+: text.drop n

theorem occursAt_append (word before after : List α) :
    OccursAt word (before ++ word ++ after) before.length := by
  rw [OccursAt, List.append_assoc, List.drop_left]
  exact List.prefix_append word after

theorem occursAt_append_iff (hn : before.length ≤ n) :
    OccursAt word (before ++ text) n ↔ OccursAt word text (n - before.length) := by
  rw [OccursAt, OccursAt, List.drop_append, List.drop_of_length_le hn, List.nil_append]

theorem occursAt_drop (k : Nat) : OccursAt word (text.drop k) n ↔ OccursAt word text (k + n) := by
  rw [OccursAt, OccursAt, List.drop_drop]

theorem OccursAt.exists_eq (h : OccursAt word text n) (hn : n ≤ text.length) :
    ∃ before after, text = before ++ word ++ after ∧ before.length = n := by
  obtain ⟨after, ha⟩ := h
  refine ⟨text.take n, after, ?_, List.length_take_of_le hn⟩
  rw [List.append_assoc, ha, List.take_append_drop]

theorem OccursAt.append (h : OccursAt word text n) (hn : n ≤ text.length) (after : List α) :
    OccursAt word (text ++ after) n := by
  rw [OccursAt, List.drop_append_of_le_length hn]
  exact h.trans (List.prefix_append _ after)

theorem OccursAt.lt_length (h : OccursAt word text n) (hw : word ≠ []) : n < text.length := by
  have hl := h.length_le
  have hpos := List.length_pos_iff.mpr hw
  rw [List.length_drop] at hl
  omega

theorem infix_iff_occursAt : word <:+: text ↔ ∃ n ≤ text.length, OccursAt word text n := by
  constructor
  · rintro ⟨before, after, rfl⟩
    refine ⟨before.length, ?_, occursAt_append word before after⟩
    simp only [List.length_append]
    omega
  · rintro ⟨n, hn, h⟩
    obtain ⟨before, after, rfl, -⟩ := h.exists_eq hn
    exact ⟨before, after, rfl⟩

/-! ## The position found -/

variable [DecidableEq α]

theorem find?_eq_some_iff :
    find? word text = some n ↔ OccursAt word text n ∧ ∀ m < n, ¬OccursAt word text m := by
  induction text generalizing n with
  | nil =>
    by_cases hw : word = []
    · subst hw
      simp only [find?, if_true, Option.some.injEq, OccursAt, List.nil_prefix, true_and]
      constructor
      · rintro rfl m hm
        omega
      · intro h
        by_contra hne
        exact h 0 (by omega) trivial
    · simp [find?, hw, OccursAt]
  | cons c rest ih =>
    simp only [find?, startsWith, decide_eq_true_eq]
    by_cases hp : word <+: c :: rest
    · rw [if_pos hp, Option.some.injEq]
      constructor
      · rintro rfl
        exact ⟨hp, fun m hm => absurd hm (Nat.not_lt_zero m)⟩
      · rintro ⟨-, hmin⟩
        by_contra hne
        exact hmin 0 (by omega) hp
    · rw [if_neg hp, Option.map_eq_some_iff]
      constructor
      · rintro ⟨k, hk, rfl⟩
        obtain ⟨hat, hmin⟩ := ih.mp hk
        refine ⟨hat, fun m hm => ?_⟩
        cases m with
        | zero => exact hp
        | succ m => exact hmin m (by omega)
      · rintro ⟨hat, hmin⟩
        cases n with
        | zero => exact absurd hat hp
        | succ n => exact ⟨n, ih.mpr ⟨hat, fun m hm => hmin (m + 1) (by omega)⟩, rfl⟩

theorem find?_eq_none_iff : find? word text = none ↔ ¬word <:+: text := by
  induction text with
  | nil => simp [find?]
  | cons c rest ih =>
    simp only [find?, startsWith, decide_eq_true_eq, List.infix_cons_iff, not_or]
    by_cases hp : word <+: c :: rest
    · simp [hp]
    · simp [hp, ih]

/-- A text that holds the word holds it for the first time somewhere. -/
theorem exists_first (hw : word ≠ []) (h : word <:+: text) :
    ∃ before after, text = before ++ word ++ after ∧ ¬word <:+: before := by
  cases hf : find? word text with
  | none => exact absurd h (find?_eq_none_iff.mp hf)
  | some n =>
    obtain ⟨hat, hmin⟩ := find?_eq_some_iff.mp hf
    obtain ⟨before, after, rfl, rfl⟩ := hat.exists_eq ((Nat.le_add_right _ _).trans (find?_bound hf))
    refine ⟨before, after, rfl, fun hb => ?_⟩
    obtain ⟨m, hm, ho⟩ := infix_iff_occursAt.mp hb
    rw [List.append_assoc] at hmin
    exact hmin m (ho.lt_length hw) (ho.append hm _)

/-! ## Words that cannot overlap -/

/-- The first symbol of the word does not come again in it. -/
def Sharp (word : List α) : Prop := ∃ first rest, word = first :: rest ∧ first ∉ rest

omit [DecidableEq α]

theorem Sharp.ne_nil (h : Sharp word) : word ≠ [] := by
  obtain ⟨first, rest, rfl, -⟩ := h
  exact List.cons_ne_nil first rest

theorem Sharp.prefix_left (h : Sharp word) (hb : before ≠ [])
    (hp : word <+: before ++ word ++ after) : word <+: before := by
  by_cases hl : word.length ≤ before.length
  · rw [List.append_assoc] at hp
    exact List.prefix_of_prefix_length_le hp (List.prefix_append _ _) hl
  · -- The first symbol of the second occurrence would stand inside the first one.
    exfalso
    obtain ⟨first, rest, rfl, hf⟩ := h
    obtain ⟨k, hk⟩ := Nat.exists_eq_succ_of_ne_zero (List.length_pos_iff.mpr hb).ne'
    have hlt : before.length < (first :: rest).length := by omega
    have heq := hp.getElem hlt
    simp only [List.append_assoc, List.getElem_append_right (Nat.le_refl _), Nat.sub_self,
      List.cons_append, List.getElem_cons_zero] at heq
    simp only [hk, List.getElem_cons_succ] at heq
    exact hf (heq ▸ List.getElem_mem _)

/-- What begins before an occurrence of a sharp word lies wholly before it. -/
theorem Sharp.occursAt_left (h : Sharp word) (hn : n < before.length)
    (ho : OccursAt word (before ++ word ++ after) n) : OccursAt word before n := by
  have hd : (before ++ word ++ after).drop n = before.drop n ++ word ++ after := by
    rw [List.append_assoc, List.drop_append_of_le_length hn.le, List.append_assoc]
  rw [OccursAt, hd] at ho
  exact h.prefix_left (by simpa using hn) ho

variable [DecidableEq α]

theorem Sharp.find?_append (h : Sharp word) (hb : ¬word <:+: body) :
    find? word (body ++ word ++ after) = some body.length := by
  refine find?_eq_some_iff.mpr ⟨occursAt_append word body after, fun m hm ho => hb ?_⟩
  exact infix_iff_occursAt.mpr ⟨m, hm.le, h.occursAt_left hm ho⟩

end SourceBundle.Text
