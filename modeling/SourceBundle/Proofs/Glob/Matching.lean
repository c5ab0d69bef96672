import Mathlib.Data.List.Infix
import SourceBundle.Glob.Pattern

/-! # What patterns match

The names that a pattern accepts, and the lists of names that a list of patterns leads along, said
without a search.
-/
namespace SourceBundle.Glob

variable {pattern next : Pattern} {patterns rest : List Pattern} {x : String} {names : List String}
  {name text tail : List Char}

namespace Pattern

/-- Each token stands for one character, or for any number of them where it is made of stars. -/
inductive Matches : Pattern → List Char → Prop
  | nil : Matches [] []
  | one {token : Token} {rest : Pattern} {c : Char} {name : List Char}
      (hc : token.holds c = true) (h : Matches rest name) : Matches (token :: rest) (c :: name)
  | many {token : Token} {rest : Pattern} {tail : List Char} (front : List Char)
      (ht : token = .anySequence ∨ token = .anyDepth) (h : Matches rest tail) :
      Matches (token :: rest) (front ++ tail)

theorem mem_suffixes_iff : tail ∈ suffixes name ↔ tail <:+ name := by
  induction name with
  | nil => simp [suffixes]
  | cons c name ih => rw [suffixes, List.mem_cons, ih, List.suffix_cons_iff]

/-- Stars in front leave any end of the name to the other tokens. -/
theorem matches_many_iff {token : Token} {rest : Pattern}
    (ht : token = .anySequence ∨ token = .anyDepth) :
    Matches (token :: rest) name ↔ ∃ tail, tail <:+ name ∧ Matches rest tail := by
  constructor
  · intro h
    cases h with
    | one hc => rcases ht with rfl | rfl <;> cases hc
    | many front _ h => exact ⟨_, List.suffix_append front _, h⟩
  · rintro ⟨tail, ⟨front, rfl⟩, h⟩
    exact .many front ht h

theorem matches_one_iff {token : Token} {rest : Pattern}
    (ht : ¬(token = .anySequence ∨ token = .anyDepth)) :
    Matches (token :: rest) name ↔
      ∃ c tail, name = c :: tail ∧ token.holds c = true ∧ Matches rest tail := by
  constructor
  · intro h
    cases h with
    | one hc h => exact ⟨_, _, rfl, hc, h⟩
    | many _ ht' => exact absurd ht' ht
  · rintro ⟨c, tail, rfl, hc, h⟩
    exact .one hc h

theorem accepts_iff (pattern : Pattern) (name : List Char) :
    pattern.accepts name = true ↔ pattern.Matches name := by
  induction pattern generalizing name with
  | nil =>
    rw [accepts, List.isEmpty_iff]
    constructor
    · rintro rfl
      exact .nil
    · rintro ⟨⟩
      rfl
  | cons token rest ih =>
    by_cases ht : token = .anySequence ∨ token = .anyDepth
    · rw [matches_many_iff ht]
      rcases ht with rfl | rfl <;> simp [accepts, mem_suffixes_iff, ih]
    · rw [matches_one_iff ht]
      obtain ⟨hstar, hdepth⟩ := not_or.mp ht
      cases name <;> simp [accepts, ih]

/-- A pattern without wildcards matches its own text. -/
theorem matches_of_literal? (h : pattern.literal? = some text) :
    pattern.Matches name ↔ name = text := by
  rw [← accepts_iff, accepts_of_literal? h, decide_eq_true_eq]

theorem isRecursive_of_literal? (h : pattern.literal? = some text) :
    pattern.isRecursive = false := by
  induction pattern generalizing text with
  | nil => rfl
  | cons token rest ih =>
    cases token with
    | char c =>
      obtain ⟨tail, ht, -⟩ := Option.map_eq_some_iff.mp h
      have hrest : Token.anyDepth ∉ rest := by simpa [isRecursive] using ih ht
      simpa [isRecursive] using hrest
    | _ => cases h

end Pattern

/-- The names go along the patterns, one name for each. Two stars stand for any directories, or for
none, and something has to follow them. -/
inductive Along : List Pattern → List String → Prop
  | nil : Along [] []
  | name {pattern : Pattern} {patterns : List Pattern} {x : String} {names : List String}
      (hp : pattern.isRecursive = false) (hx : pattern.Matches x.toList)
      (h : Along patterns names) : Along (pattern :: patterns) (x :: names)
  | skip {pattern : Pattern} {patterns : List Pattern} {names : List String}
      (hp : pattern.isRecursive = true) (hne : patterns ≠ [])
      (h : Along patterns names) : Along (pattern :: patterns) names
  | deeper {pattern : Pattern} {patterns : List Pattern} {x : String} {names : List String}
      (hp : pattern.isRecursive = true) (h : Along (pattern :: patterns) names) :
      Along (pattern :: patterns) (x :: names)

theorem Along.ne_nil (h : Along patterns names) (hne : patterns ≠ []) : names ≠ [] := by
  induction h with
  | nil => exact absurd rfl hne
  | name => exact List.cons_ne_nil _ _
  | skip _ hrest _ ih => exact ih hrest
  | deeper => exact List.cons_ne_nil _ _

theorem along_name_iff (hp : pattern.isRecursive = false) :
    Along (pattern :: patterns) (x :: names) ↔ pattern.Matches x.toList ∧ Along patterns names := by
  constructor
  · intro h
    cases h with
    | name _ hx h => exact ⟨hx, h⟩
    | skip hp' => exact absurd hp' (Bool.eq_false_iff.mp hp)
    | deeper hp' => exact absurd hp' (Bool.eq_false_iff.mp hp)
  · rintro ⟨hx, h⟩
    exact .name hp hx h

/-- Two stars either end at a name that goes with the next pattern, or take the name in. -/
theorem along_depth_iff (hp : pattern.isRecursive = true) :
    Along (pattern :: patterns) (x :: names) ↔
      (∃ next rest, patterns.dropWhile Pattern.isRecursive = next :: rest ∧
        next.Matches x.toList ∧ Along rest names) ∨ Along (pattern :: patterns) names := by
  constructor
  · intro h
    induction patterns generalizing pattern with
    | nil =>
      cases h with
      | name hp' => exact absurd hp (Bool.eq_false_iff.mp hp')
      | skip _ hne => exact absurd rfl hne
      | deeper _ h => exact Or.inr h
    | cons next rest ih =>
      cases h with
      | name hp' => exact absurd hp (Bool.eq_false_iff.mp hp')
      | deeper _ h => exact Or.inr h
      | skip _ hne h =>
        by_cases hn : next.isRecursive = true
        · rw [List.dropWhile_cons_of_pos hn]
          exact (ih hn h).imp_right (.skip hp hne)
        · have hn := Bool.eq_false_iff.mpr hn
          exact Or.inl ⟨next, rest, by rw [List.dropWhile_cons, hn]; rfl,
            (along_name_iff hn).mp h⟩
  · rintro (⟨next, rest, hd, hx, h⟩ | h)
    · induction patterns generalizing pattern with
      | nil => cases hd
      | cons first patterns ih =>
        by_cases hf : first.isRecursive = true
        · rw [List.dropWhile_cons_of_pos hf] at hd
          exact .skip hp (List.cons_ne_nil _ _) (ih hf hd)
        · rw [List.dropWhile_cons_of_neg hf] at hd
          obtain ⟨rfl, rfl⟩ := List.cons_eq_cons.mp hd
          exact .skip hp (List.cons_ne_nil _ _) (.name (Bool.eq_false_iff.mpr hf) hx h)
    · exact .deeper hp h

end SourceBundle.Glob
