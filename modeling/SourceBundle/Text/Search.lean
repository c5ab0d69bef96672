/-! # Searching a word

The first occurrence of a word in a text over any alphabet. The position found, with the
length of the word, stays inside the text.
-/
namespace SourceBundle.Text

variable {α : Type} [DecidableEq α]

def startsWith (word text : List α) : Bool := decide (word <+: text)

def find? (word : List α) : List α → Option Nat
  | [] => if word = [] then some 0 else none
  | c :: rest => if startsWith word (c :: rest) then some 0 else (find? word rest).map (· + 1)

theorem find?_bound {word text : List α} {n : Nat} (h : find? word text = some n) :
    n + word.length ≤ text.length := by
  induction text generalizing n with
  | nil =>
    by_cases hw : word = []
    · subst hw
      simp only [find?, if_true, Option.some.injEq] at h
      simp [← h]
    · simp [find?, hw] at h
  | cons c rest ih =>
    simp only [find?] at h
    split at h
    · rename_i hp
      have hp : word <+: c :: rest := by simpa [startsWith] using hp
      simp only [Option.some.injEq] at h
      subst h
      simpa using hp.length_le
    · obtain ⟨m, hm, rfl⟩ := Option.map_eq_some_iff.mp h
      have := ih hm
      simp only [List.length_cons]
      omega

def contains (word text : List α) : Bool := (find? word text).isSome

/-- The text cut at every `mark`: always one piece more than there are marks. -/
def split (mark : α) : List α → List (List α)
  | [] => [[]]
  | c :: rest =>
    if c = mark then [] :: split mark rest
    else match split mark rest with
      | [] => [[c]]
      | piece :: pieces => (c :: piece) :: pieces

def join (mark : List α) : List (List α) → List α
  | [] => []
  | [piece] => piece
  | piece :: pieces => piece ++ mark ++ join mark pieces

end SourceBundle.Text
