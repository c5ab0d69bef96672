import Mathlib.Tactic.SplitIfs
import SourceBundle.Proofs.Glob.Matching
import SourceBundle.Proofs.Glob.Steps
import SourceBundle.Proofs.Outcome

/-! # Reading patterns -/
namespace SourceBundle.Glob

variable {position count : Nat} {before : Option Char} {fresh : Bool} {pattern rest : Pattern}
  {text front after : List Char}

/-! ## What a text spells -/

/-- The text spells the pattern. It is fresh where two stars would form a component. -/
inductive Spells : Bool → List Char → Pattern → Prop
  | nil {fresh : Bool} : Spells fresh [] []
  | anyChar {fresh : Bool} {text : List Char} {rest : Pattern} (h : Spells false text rest) :
      Spells fresh ('?' :: text) (.anyChar :: rest)
  | anySequence {fresh : Bool} {text : List Char} {rest : Pattern} (hs : text.head? ≠ some '*')
      (h : Spells false text rest) : Spells fresh ('*' :: text) (.anySequence :: rest)
  | lastDepth : Spells true ['*', '*'] [.anyDepth]
  | anyDepth {text : List Char} {rest : Pattern} (h : Spells true text rest) :
      Spells true ('*' :: '*' :: '/' :: text) (.anyDepth :: rest)
  | oneOf {fresh : Bool} {text after : List Char} {token : Token} {count : Nat} {rest : Pattern}
      (hc : class? text = some (token, after, count)) (h : Spells false after rest) :
      Spells fresh ('[' :: text) (token :: rest)
  | char {fresh : Bool} {c : Char} {text : List Char} {rest : Pattern}
      (hc : c ≠ '?' ∧ c ≠ '*' ∧ c ≠ '[') (h : Spells (c = '/') text rest) :
      Spells fresh (c :: text) (.char c :: rest)

theorem spells_of_tokens (h : tokens position before text = .ok pattern) :
    Spells (before.all (· = '/')) text pattern := by
  fun_induction tokens position before text generalizing pattern with
  | case1 position before =>
    cases h
    exact .nil
  | case2 position before text ih =>
    obtain ⟨rest, hr, hp⟩ := bind_ok h
    cases hp
    exact .anyChar (ih hr)
  | case3 => cases h
  | case4 position before hb =>
    cases h
    rw [hb]
    exact .lastDepth
  | case5 position before hb text _ ih =>
    obtain ⟨rest, hr, hp⟩ := bind_ok h
    cases hp
    rw [hb]
    exact .anyDepth (ih hr)
  | case6 => cases h
  | case7 => cases h
  | case8 position before text _ hs ih =>
    obtain ⟨rest, hr, hp⟩ := bind_ok h
    cases hp
    refine .anySequence (fun hhead => ?_) (ih hr)
    obtain ⟨tail, ht⟩ := List.head?_eq_some_iff.mp hhead
    exact hs tail ht
  | case9 position before text token after count hc ih =>
    obtain ⟨rest, hr, hp⟩ := bind_ok h
    cases hp
    exact .oneOf hc (ih hr)
  | case10 => cases h
  | case11 position before c text hq _ _ hs hb ih =>
    obtain ⟨rest, hr, hp⟩ := bind_ok h
    cases hp
    exact .char ⟨hq, hs, hb⟩ (ih hr)

theorem tokens_of_spells (h : Spells fresh text pattern)
    (hb : before.all (· = '/') = fresh) : tokens position before text = .ok pattern := by
  induction h generalizing position before with
  | nil => rw [tokens]
  | anyChar _ ih =>
    rw [tokens, ih rfl]
    rfl
  | @anySequence fresh text rest hs _ ih =>
    rw [tokens, ih rfl]
    · rfl
    · rintro tail rfl
      exact hs rfl
    · rintro tail rfl
      exact hs rfl
  | lastDepth => rw [tokens, if_pos hb]
  | anyDepth _ ih =>
    rw [tokens, if_pos hb, ih rfl]
    · rfl
  | @oneOf fresh text after token count rest hc _ ih =>
    rw [tokens]
    split
    · rename_i hc'
      cases hc.symm.trans hc'
      rw [ih rfl]
      rfl
    · rename_i hc'
      cases hc.symm.trans hc'
  | char hc _ ih =>
    rw [tokens, ih rfl]
    · rfl
    · exact hc.1
    · exact fun _ h => absurd h hc.2.1
    · exact fun _ h => absurd h hc.2.1
    · exact hc.2.1
    · exact hc.2.2

theorem parse_eq_ok_iff : Pattern.parse text = .ok pattern ↔ Spells true text pattern :=
  ⟨spells_of_tokens, fun h => tokens_of_spells h rfl⟩

theorem class?_token {token : Token} (h : class? text = some (token, after, count)) :
    ∃ spans, token = .oneOf spans ∨ token = .noneOf spans := by
  unfold class? at h
  split at h <;> obtain ⟨⟨members, rest⟩, -, he⟩ := Option.map_eq_some_iff.mp h <;> cases he
  · exact ⟨_, Or.inr rfl⟩
  · exact ⟨_, Or.inl rfl⟩

/-- A text that spells one name is that name. -/
theorem Spells.text_eq (h : Spells fresh text pattern) {name : List Char}
    (hl : pattern.literal? = some name) : name = text := by
  induction h generalizing name with
  | nil => exact (Option.some.inj hl).symm
  | anyChar => cases hl
  | anySequence => cases hl
  | lastDepth => cases hl
  | anyDepth => cases hl
  | oneOf hc =>
    obtain ⟨spans, rfl | rfl⟩ := class?_token hc <;> cases hl
  | char _ _ ih =>
    obtain ⟨tail, ht, rfl⟩ := Option.map_eq_some_iff.mp hl
    rw [ih ht]

/-! ## Texts without wildcards -/

/-- The pattern that matches one name and is spelled like it. -/
def literal (name : String) : Pattern := name.toList.map .char

theorem literal?_literal (name : String) : (literal name).literal? = some name.toList := by
  unfold literal
  induction name.toList with
  | nil => rfl
  | cons c text ih => rw [List.map_cons, Pattern.literal?, ih]; rfl

/-- A plain text in front adds its characters; what follows its last slash is fresh again. -/
theorem Spells.append (hf : Plain front) (h : Spells true text pattern)
    (hend : front.getLast? = some '/') :
    Spells fresh (front ++ text) (front.map .char ++ pattern) := by
  induction front generalizing fresh with
  | nil => cases hend
  | cons c front ih =>
    obtain ⟨hc, hf⟩ := List.forall_mem_cons.mp hf
    refine .char hc ?_
    cases front with
    | nil =>
      obtain rfl : c = '/' := Option.some.inj hend
      exact h
    | cons d front => exact ih hf (by rwa [List.getLast?_cons_cons] at hend)

theorem Plain.spells (h : Plain text) : Spells fresh text (text.map .char) := by
  induction text generalizing fresh with
  | nil => exact .nil
  | cons c text ih =>
    obtain ⟨hc, h⟩ := List.forall_mem_cons.mp h
    exact .char hc (ih h)

end SourceBundle.Glob
