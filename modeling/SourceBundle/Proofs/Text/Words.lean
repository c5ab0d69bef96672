import SourceBundle.Proofs.Text.Search
import SourceBundle.Text.Quoted

/-! # Words in composed texts

A word cannot reach over a symbol that it does not have. So whether it stands in a composed text can
be told from the parts that such symbols set apart, and whether it stands between quotes from the
text that is quoted: escapes neither make up a word nor hide one.
-/
namespace SourceBundle.Text

section

variable {α : Type} {word before after marks text : List α} {c d : α}

theorem infix_append_cons_iff (hc : c ∉ word) :
    word <:+: before ++ c :: after ↔ word <:+: before ∨ word <:+: after := by
  constructor
  · intro h
    rcases List.infix_append_iff.mp h with hb | ha | ⟨left, right, rfl, hl, hr⟩
    · exact Or.inl hb
    · rcases List.infix_cons_iff.mp ha with hp | ha
      · cases word with
        | nil => exact Or.inr (List.nil_infix ..)
        | cons d word =>
          obtain ⟨rfl, -⟩ := List.cons_prefix_cons.mp hp
          exact absurd List.mem_cons_self hc
      · exact Or.inr ha
    · cases right with
      | nil =>
        rw [List.append_nil]
        exact Or.inl hl.isInfix
      | cons d right =>
        obtain ⟨rfl, -⟩ := List.cons_prefix_cons.mp hr
        exact absurd (List.mem_append_right left List.mem_cons_self) hc
  · rintro (hb | ha)
    · exact hb.trans (List.prefix_append _ _).isInfix
    · exact ha.trans ((List.suffix_cons c after).trans (List.suffix_append before _)).isInfix

theorem infix_cons_iff_of_not_mem (hc : c ∉ word) :
    word <:+: c :: after ↔ word <:+: after := by
  rw [← List.nil_append (c :: after), infix_append_cons_iff hc]
  refine or_iff_right_of_imp fun h => ?_
  rw [List.infix_nil.mp h]
  exact List.nil_infix ..

theorem infix_append_iff_of_not_mem (hm : ∀ c ∈ marks, c ∉ word) :
    word <:+: marks ++ after ↔ word <:+: after := by
  induction marks with
  | nil => rfl
  | cons c marks ih =>
    rw [List.cons_append, infix_cons_iff_of_not_mem (hm c List.mem_cons_self)]
    exact ih fun d hd => hm d (List.mem_cons_of_mem c hd)

/-- Symbols that the word does not have set two parts apart. -/
theorem infix_append_append_iff (hm : ∀ c ∈ marks, c ∉ word) (hne : marks ≠ []) :
    word <:+: before ++ (marks ++ after) ↔ word <:+: before ∨ word <:+: after := by
  obtain ⟨c, marks, rfl⟩ := List.exists_cons_of_ne_nil hne
  rw [List.cons_append, infix_append_cons_iff (hm c List.mem_cons_self),
    infix_append_iff_of_not_mem fun d hd => hm d (List.mem_cons_of_mem c hd)]

/-- A symbol in front matters only if the word starts with it. -/
theorem infix_cons_iff_of_ne (h : word.head? ≠ some c) (hne : word ≠ []) :
    word <:+: c :: after ↔ word <:+: after := by
  rw [List.infix_cons_iff]
  refine or_iff_right fun hp => ?_
  obtain ⟨d, word, rfl⟩ := List.exists_cons_of_ne_nil hne
  obtain ⟨rfl, -⟩ := List.cons_prefix_cons.mp hp
  exact h rfl

/-- A symbol behind matters only if the word ends with it. -/
theorem infix_concat_iff_of_ne (h : word.getLast? ≠ some c) (hne : word ≠ []) :
    word <:+: before ++ [c] ↔ word <:+: before := by
  rw [List.infix_concat_iff]
  refine or_iff_right fun hs => ?_
  rcases List.suffix_concat_iff.mp hs with rfl | ⟨front, rfl, -⟩
  · exact hne rfl
  · exact h List.getLast?_concat

theorem not_infix_of_not_mem (hc : c ∈ word) (h : c ∉ text) : ¬word <:+: text :=
  fun hi => h (hi.subset hc)

/-! ## Texts written symbol by symbol -/

/-- What the symbol is written as sets apart what stands before and behind it. -/
def Parts (word : List α) (written : List α) : Prop :=
  ∀ before after, word <:+: before ++ (written ++ after) ↔ word <:+: before ∨ word <:+: after

theorem infix_flatMap_iff {f : α → List α} (hsame : ∀ c ∈ word, f c = [c])
    (hparts : ∀ c ∉ word, Parts word (f c)) : word <:+: text.flatMap f ↔ word <:+: text := by
  classical
  -- Up to the first symbol that the word does not have, nothing is rewritten.
  suffices h : ∀ front, word <:+: front ++ text.flatMap f ↔ word <:+: front ++ text from h []
  induction text with
  | nil => exact fun front => Iff.rfl
  | cons c text ih =>
    intro front
    by_cases hc : c ∈ word
    · have hnext := ih (front ++ [c])
      rw [List.append_assoc, List.append_assoc] at hnext
      rw [List.flatMap_cons, hsame c hc]
      exact hnext
    · rw [List.flatMap_cons, hparts c hc, infix_append_cons_iff hc]
      exact or_congr_right (ih [])

end

/-! ## Texts in quotes -/

theorem isHidden_of_visible {c : Char} (h : 0x20 ≤ c.toNat ∧ c.toNat ≤ 0x7E) :
    isHidden c = false := by
  have hranges : (hiddenRanges.toList.all fun r => r.2 < 0x20 || 0x7E < r.1) = true := by
    decide +kernel
  rw [isHidden, ← Array.any_toList, List.any_eq_false]
  intro r hr
  have := List.all_eq_true.mp hranges r hr
  simp only [Bool.or_eq_true, decide_eq_true_eq, Bool.and_eq_true] at this ⊢
  omega

theorem quoteChar_of_visible {c : Char} (h : 0x20 ≤ c.toNat ∧ c.toNat ≤ 0x7E) (hq : c ≠ '"')
    (hb : c ≠ '\\') : quoteChar c = [c] := by
  unfold quoteChar
  split
  · exact absurd h (by decide)
  · exact absurd h (by decide)
  · exact absurd h (by decide)
  · exact absurd h (by decide)
  · exact absurd rfl hb
  · exact absurd rfl hq
  · rw [isHidden_of_visible h]
    rfl

/-- A word that keeps its form in quotes and is none of what an escape may end with. -/
structure Bare (word : List Char) : Prop where
  same : ∀ c ∈ word, quoteChar c = [c]
  backslash : '\\' ∉ word
  braces : '\x7b' ∉ word ∧ '\x7d' ∉ word
  head : ∀ c ∈ ['0', 't', 'r', 'n', '\\', '"'], word.head? ≠ some c
  /-- It has a letter that is neither a hexadecimal digit nor the letter of the escape. -/
  letter : ∃ c ∈ word, c ≠ 'u' ∧ c ∉ "0123456789abcdef".toList
  ne_nil : word ≠ []

variable {word text : List Char}

theorem mem_digits_of_mem_toDigits {n : Nat} {c : Char} (h : c ∈ Nat.toDigits 16 n) :
    c ∈ "0123456789abcdef".toList := by
  have hdigit : ∀ d < 16, Nat.digitChar d ∈ "0123456789abcdef".toList := by decide
  induction n using Nat.strong_induction_on with
  | _ n ih =>
    rcases Nat.lt_or_ge n 16 with hn | hn
    · rw [Nat.toDigits_of_lt_base hn, List.mem_singleton] at h
      exact h ▸ hdigit n hn
    · rw [Nat.toDigits_of_base_le (by decide) hn, List.mem_append, List.mem_singleton] at h
      rcases h with h | rfl
      · exact ih _ (Nat.div_lt_self (by omega) (by decide)) h
      · exact hdigit _ (Nat.mod_lt n (by decide))

theorem Bare.parts_escape (h : Bare word) {c : Char}
    (hc : c ∈ ['0', 't', 'r', 'n', '\\', '"']) : Parts word ['\\', c] := by
  intro before after
  rw [List.cons_append, infix_append_cons_iff h.backslash]
  exact or_congr_right (infix_cons_iff_of_ne (h.head c hc) h.ne_nil)

theorem Bare.parts_code (h : Bare word) (n : Nat) :
    Parts word ('\\' :: 'u' :: '\x7b' :: Nat.toDigits 16 n ++ ['\x7d']) := by
  intro before after
  obtain ⟨c, hc, hu, hdigit⟩ := h.letter
  have hdigits : ¬word <:+: Nat.toDigits 16 n :=
    not_infix_of_not_mem hc fun hm => hdigit (mem_digits_of_mem_toDigits hm)
  have hletter : ¬word <:+: ['u'] :=
    not_infix_of_not_mem hc fun hm => hu (List.mem_singleton.mp hm)
  have hcode : word <:+: 'u' :: '\x7b' :: (Nat.toDigits 16 n ++ '\x7d' :: after) ↔
      word <:+: after := by
    rw [← List.singleton_append, infix_append_cons_iff h.braces.1, or_iff_right hletter,
      infix_append_cons_iff h.braces.2, or_iff_right hdigits]
  simp only [List.cons_append, List.append_assoc, List.nil_append]
  rw [infix_append_cons_iff h.backslash, hcode]

theorem Bare.parts_quoteChar (h : Bare word) {c : Char} (hc : c ∉ word) :
    Parts word (quoteChar c) := by
  unfold quoteChar
  split
  · exact h.parts_escape (by simp)
  · exact h.parts_escape (by simp)
  · exact h.parts_escape (by simp)
  · exact h.parts_escape (by simp)
  · exact h.parts_escape (by simp)
  · exact h.parts_escape (by simp)
  · split
    · exact h.parts_code _
    · exact fun before after => infix_append_cons_iff hc

/-- A word stands in quotes if and only if it stands in what is quoted. -/
theorem Bare.infix_quote_iff (h : Bare word) : word <:+: quote text ↔ word <:+: text := by
  have hmark : '"' ∉ word := fun hm => by
    have hsame := h.same _ hm
    cases hsame
  rw [quote, List.cons_append, infix_cons_iff_of_not_mem hmark, infix_append_cons_iff hmark,
    infix_flatMap_iff h.same fun c => h.parts_quoteChar]
  refine or_iff_left fun hnil => ?_
  exact h.ne_nil (List.infix_nil.mp hnil)

end SourceBundle.Text
