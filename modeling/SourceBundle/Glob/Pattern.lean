/-! # Wildcard patterns

In a pattern `?` stands for one character, `*` for any characters, `[...]` for one character of
a class and `[!...]` for one outside it. Two stars make a component of their own and stand for
any directories. A pattern is read from left to right, and the first fault in it is told with
its position.
-/
namespace SourceBundle.Glob

structure Span where
  low : Char
  high : Char
deriving DecidableEq, Repr

inductive Token where
  | char (c : Char)
  | anyChar
  | anySequence
  /-- Any directories; a component of its own. -/
  | anyDepth
  | oneOf (spans : List Span)
  | noneOf (spans : List Span)
deriving DecidableEq, Repr

abbrev Pattern := List Token

/-! ## Reading -/

inductive Fault where
  /-- Three stars or more. -/
  | stars
  /-- Two stars beside something else in a component. -/
  | depth
  /-- A bracket that opens no class. -/
  | bracket
deriving DecidableEq, Repr

structure Malformed where
  position : Nat
  fault : Fault
deriving DecidableEq, Repr

def Malformed.text (m : Malformed) : String :=
  "Pattern syntax error near position " ++ toString m.position ++ ": " ++
    match m.fault with
    | .stars => "wildcards are either regular `*` or recursive `**`"
    | .depth => "recursive wildcards must form a single path component"
    | .bracket => "invalid range pattern"

/-- The members of a class and the text after its closing bracket; the first member may be a
closing bracket itself. -/
def members? : List Char → Option (List Char × List Char)
  | [] => none
  | first :: text =>
    match text.dropWhile (· ≠ ']') with
    | [] => none
    | _ :: after => some (first :: text.takeWhile (· ≠ ']'), after)

theorem members?_length {text members after : List Char}
    (h : members? text = some (members, after)) :
    members.length + after.length + 1 = text.length := by
  cases text with
  | nil => cases h
  | cons first text =>
    simp only [members?] at h
    split at h
    · cases h
    · rename_i last after' hd
      simp only [Option.some.injEq, Prod.mk.injEq] at h
      obtain ⟨rfl, rfl⟩ := h
      have := congrArg List.length (List.takeWhile_append_dropWhile (p := (· ≠ ']')) (l := text))
      rw [hd] at this
      simp only [List.length_append, List.length_cons] at this ⊢
      omega

/-- A hyphen between two members makes a range of them. -/
def spans : List Char → List Span
  | low :: '-' :: high :: rest => ⟨low, high⟩ :: spans rest
  | c :: rest => ⟨c, c⟩ :: spans rest
  | [] => []

/-- The class after an opening bracket, the text after it and the count of its characters. -/
def class? (text : List Char) : Option (Token × List Char × Nat) :=
  match text with
  | '!' :: text =>
    (members? text).map fun (members, after) => (.noneOf (spans members), after, members.length + 2)
  | text =>
    (members? text).map fun (members, after) => (.oneOf (spans members), after, members.length + 1)

theorem class?_length {text after : List Char} {token : Token} {count : Nat}
    (h : class? text = some (token, after, count)) : after.length < text.length := by
  unfold class? at h
  split at h
  · obtain ⟨⟨members, rest⟩, hm, he⟩ := Option.map_eq_some_iff.mp h
    cases he
    have := members?_length hm
    simp only [List.length_cons]
    omega
  · obtain ⟨⟨members, rest⟩, hm, he⟩ := Option.map_eq_some_iff.mp h
    cases he
    have := members?_length hm
    omega

/-- Reads a text whose first character has this position and follows `before`. -/
def tokens (position : Nat) (before : Option Char) : List Char → Except Malformed Pattern
  | [] => .ok []
  | '?' :: text => do return .anyChar :: (← tokens (position + 1) (some '?') text)
  | '*' :: '*' :: '*' :: _ => .error ⟨position + 2, .stars⟩
  | '*' :: '*' :: text =>
    if before.all (· = '/') then
      match text with
      | [] => .ok [.anyDepth]
      | '/' :: text => do return .anyDepth :: (← tokens (position + 3) (some '/') text)
      | _ => .error ⟨position + 2, .depth⟩
    else .error ⟨position - 1, .depth⟩
  | '*' :: text => do return .anySequence :: (← tokens (position + 1) (some '*') text)
  | '[' :: text =>
    match _h : class? text with
    | some (token, after, count) => do
      return token :: (← tokens (position + 1 + count) (some ']') after)
    | none => .error ⟨position, .bracket⟩
  | c :: text => do return .char c :: (← tokens (position + 1) (some c) text)
termination_by text => text.length
decreasing_by
  · simp
  · simp only [List.length_cons]
    omega
  · simp
  · have := class?_length _h
    simp only [List.length_cons]
    omega
  · simp

def Pattern.parse (text : List Char) : Except Malformed Pattern := tokens 0 none text

/-! ## Matching -/

def inSpans (spans : List Span) (c : Char) : Bool := spans.any fun s => s.low ≤ c && c ≤ s.high

/-- Whether a token that stands for one character stands for this one. -/
def Token.holds : Token → Char → Bool
  | .char d, c => c = d
  | .anyChar, _ => true
  | .oneOf spans, c => inSpans spans c
  | .noneOf spans, c => !inSpans spans c
  | .anySequence, _ | .anyDepth, _ => false

def suffixes : List Char → List (List Char)
  | [] => [[]]
  | c :: text => (c :: text) :: suffixes text

namespace Pattern

def accepts : Pattern → List Char → Bool
  | [], name => name.isEmpty
  | .anySequence :: rest, name | .anyDepth :: rest, name => (suffixes name).any (accepts rest)
  | _ :: _, [] => false
  | token :: rest, c :: name => token.holds c && accepts rest name

def isRecursive (p : Pattern) : Bool := p.contains .anyDepth

/-- The one name that a pattern without wildcards matches. -/
def literal? : Pattern → Option (List Char)
  | [] => some []
  | .char c :: rest => (literal? rest).map (c :: ·)
  | _ => none

theorem accepts_of_literal? {p : Pattern} {text : List Char} (h : p.literal? = some text)
    (name : List Char) : p.accepts name = decide (name = text) := by
  induction p generalizing text name with
  | nil =>
    simp only [literal?, Option.some.injEq] at h
    subst h
    cases name <;> simp [accepts]
  | cons token rest ih =>
    cases token with
    | char c =>
      obtain ⟨text, ht, rfl⟩ := Option.map_eq_some_iff.mp h
      cases name with
      | nil => simp [accepts]
      | cons d name => by_cases hd : d = c <;> simp [accepts, Token.holds, ih ht, hd]
    | _ => cases h

end Pattern

end SourceBundle.Glob
