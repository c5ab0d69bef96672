import SourceBundle.Text.Blank
import SourceBundle.Text.Search
import SourceBundle.Error
import SourceBundle.Path

/-! # Directives

A directive starts at an opener that does not follow the guard symbol and runs to the first
closer; what stands between them is its body. The scanner keeps two positions: `copied`, up to
which the text has been dealt with, and `search`, from which the next opener is looked for.
The alphabet is a parameter, so that the same scanner reads characters and octets.
-/
namespace SourceBundle.Directive

/-- How directives are spelled in an alphabet. -/
structure Spelling (α : Type) where
  opener : List α
  closer : List α
  guard : α
  opens : opener ≠ []

/-- The spelling in source files: `/*requires` up to `*/`, but not right after a star. -/
def spelling : Spelling Char where
  opener := "/*requires".toList
  closer := "*/".toList
  guard := '*'
  opens := by simp

structure Scan (α : Type) where
  copied : Nat
  search : Nat
  contents : List α
  bodies : List (List α)
deriving DecidableEq, Repr

variable {α : Type} [DecidableEq α]

/-- What one look for an opener leads to. -/
inductive Step (α : Type) where
  | next (scan : Scan α)
  /-- No opener is left. -/
  | finished (contents : List α) (bodies : List (List α))
  /-- The directive at this position is never closed. -/
  | unclosed (position : Nat)

def begin : Scan α := ⟨0, 0, [], []⟩

def slice (text : List α) (first last : Nat) : List α := (text.take last).drop first

def step (sp : Spelling α) (text : List α) (s : Scan α) : Step α :=
  match Text.find? sp.opener (text.drop s.search) with
  | none => .finished (s.contents ++ text.drop s.copied) s.bodies
  | some offset =>
    let position := s.search + offset
    if (text.take position).getLast? = some sp.guard then
      .next { s with search := position + 1 }
    else
      let body := position + sp.opener.length
      match Text.find? sp.closer (text.drop body) with
      | none => .unclosed position
      | some length =>
        let after := body + length + sp.closer.length
        .next ⟨after, after, s.contents ++ slice text s.copied position,
          s.bodies ++ [slice text body (body + length)]⟩

/-- Every step that goes on searches from further right, inside the text. -/
theorem step_next {sp : Spelling α} {text : List α} {s t : Scan α}
    (h : step sp text s = .next t) : s.search < t.search ∧ t.search ≤ text.length := by
  have opens : 0 < sp.opener.length := List.length_pos_iff.mpr sp.opens
  unfold step at h
  split at h
  · cases h
  · rename_i offset found
    have inside := Text.find?_bound found
    rw [List.length_drop] at inside
    simp only at h
    split at h
    · cases h
      exact ⟨by simp only; omega, by simp only; omega⟩
    · split at h
      · cases h
      · rename_i length closed
        have inside' := Text.find?_bound closed
        rw [List.length_drop] at inside'
        cases h
        exact ⟨by simp only; omega, by simp only; omega⟩

/-- The outcome of a whole scan: contents and bodies, or the position of an unclosed
directive. -/
abbrev Outcome (α : Type) := Except Nat (List α × List (List α))

def run (sp : Spelling α) (text : List α) (s : Scan α) : Outcome α :=
  match _h : step sp text s with
  | .finished contents bodies => .ok (contents, bodies)
  | .unclosed position => .error position
  | .next t => run sp text t
termination_by text.length - s.search
decreasing_by
  have := step_next _h
  omega

def scan (sp : Spelling α) (text : List α) : Outcome α := run sp text begin

/-- The first line of a text, without its line end; the empty text has no line. -/
def firstLine? (text : List Char) : Option (List Char) :=
  let line := text.takeWhile (· ≠ '\n')
  if text = [] then none
  else if line.length < text.length ∧ line.getLast? = some '\r' then some line.dropLast
  else some line

/-- A file without its directives, and what they name, trimmed. -/
structure Parsed where
  contents : List Char
  requires : List String
deriving DecidableEq, Repr

/-- Takes the directives out of a text; `file` labels the error. -/
def parse (file : String) (text : List Char) : Except Error Parsed :=
  match scan spelling text with
  | .ok (contents, bodies) => .ok ⟨contents, bodies.map fun b => String.ofList (Text.trim b)⟩
  | .error position =>
    .error (.malformedDirective file
      (String.ofList ((firstLine? (text.drop position)).getD spelling.opener)))

/-- What a reference names, seen from the directory of the file that holds it. A reference that
starts with a slash or a backslash is taken as written. -/
def resolve (directory reference : String) : String :=
  match reference.toList with
  | '/' :: _ | '\\' :: _ => reference
  | _ => Path.join directory reference

end SourceBundle.Directive
