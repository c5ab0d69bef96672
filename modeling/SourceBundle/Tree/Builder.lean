import SourceBundle.Registry

/-! # Building a tree

A tree is built with a stack of open nodes, the latest first, so that deep chains need no
recursion. Each open node holds what hangs below it so far and how many of its dependencies have
been tried; when it is closed it is hung below the next one. The files not yet expanded and the
dependencies not yet tried bound the moves.
-/
namespace SourceBundle

inductive Tree.Mark where
  | plain
  | cycle
  | seen
deriving DecidableEq, Repr, Inhabited

inductive Tree where
  | node (file : SourceId) (mark : Tree.Mark) (children : List Tree)
deriving Repr, Inhabited

namespace Tree

def leaf (file : SourceId) (mark : Mark) : Tree := node file mark []

/-- A node whose children are still being built. -/
structure Frame where
  file : SourceId
  depth : Nat
  children : List Tree := []
  /-- How many of the dependencies of the file have been tried. -/
  tried : Nat := 0
deriving Repr, Inhabited

structure Builder where
  /-- The files of the open nodes. -/
  branch : List SourceId
  /-- The files expanded so far, in this tree or in one before it. -/
  expanded : List SourceId
  stack : List Frame
  /-- The tree of the root, once the root is closed. -/
  tree : Tree
deriving Repr, Inhabited

namespace Builder

/-- The root is always opened, even if it has been expanded before. -/
def begin (expanded : List SourceId) (root : SourceId) : Builder where
  branch := [root]
  expanded := root :: expanded
  stack := [{ file := root, depth := 0 }]
  tree := leaf root .plain

/-- Whether a depth is above the limit. -/
def isAbove (limit : Option Nat) (depth : Nat) : Bool := limit.all (depth < ·)

/-- The dependency that is tried next below an open node. -/
def next? (r : Registry) (limit : Option Nat) (top : Frame) : Option SourceId :=
  if isAbove limit top.depth then (r.dependencies top.file)[top.tried]? else none

/-- Hangs a leaf below the latest open node. -/
def pushChild (s : Builder) (tree : Tree) : Builder :=
  match s.stack with
  | [] => s
  | parent :: rest =>
    { s with stack := { parent with children := parent.children ++ [tree] } :: rest }

/-- Closes an open node: its tree hangs below the next one, or is the whole. -/
def close (s : Builder) (top : Frame) (rest : List Frame) : Builder :=
  let tree := node top.file .plain top.children
  let branch := s.branch.filter (· ≠ top.file)
  match rest with
  | [] => { s with branch, stack := [], tree }
  | _ :: _ => pushChild { s with branch, stack := rest } tree

/-- The next move; `none` when every node is closed. -/
def step (r : Registry) (limit : Option Nat) (s : Builder) : Option Builder :=
  match s.stack with
  | [] => none
  | top :: rest =>
    match next? r limit top with
    | none => some (s.close top rest)
    | some file =>
      let depth := top.depth + 1
      let s := { s with stack := { top with tried := top.tried + 1 } :: rest }
      if file ∈ s.branch then some (s.pushChild (leaf file .cycle))
      else if (r.dependencies file).isEmpty || !isAbove limit depth then
        some (s.pushChild (leaf file .plain))
      else if file ∈ s.expanded then some (s.pushChild (leaf file .seen))
      else
        some { s with
          branch := file :: s.branch
          expanded := file :: s.expanded
          stack := { file, depth } :: s.stack }

/-- The files of the registry that may still be expanded. -/
def fresh (r : Registry) (s : Builder) : List SourceId :=
  (List.range r.size).filter (· ∉ s.expanded)

/-- The dependencies that may still be tried, and the nodes that are still open. -/
def load (r : Registry) (s : Builder) : Nat :=
  s.stack.foldr (fun f n => (r.dependencies f.file).length - f.tried + 1 + n) 0

theorem lt_of_next? {r : Registry} {limit : Option Nat} {top : Frame} {file : SourceId}
    (h : next? r limit top = some file) : top.tried < (r.dependencies top.file).length := by
  unfold next? at h
  split at h
  · exact (List.getElem?_eq_some_iff.mp h).1
  · cases h

theorem fresh_pushChild {r : Registry} (s : Builder) (tree : Tree) :
    (s.pushChild tree).fresh r = s.fresh r := by
  unfold pushChild
  split <;> rfl

theorem load_pushChild {r : Registry} (s : Builder) (tree : Tree) :
    (s.pushChild tree).load r = s.load r := by
  unfold pushChild
  split
  · rfl
  · rename_i h
    rw [load, load, h]
    rfl

theorem fresh_close {r : Registry} (s : Builder) (top : Frame) (rest : List Frame) :
    (s.close top rest).fresh r = s.fresh r := by
  cases rest with
  | nil => rfl
  | cons parent rest => exact fresh_pushChild _ _

theorem load_close {r : Registry} {s : Builder} {top : Frame} {rest : List Frame}
    (h : s.stack = top :: rest) : (s.close top rest).load r < s.load r := by
  have hload : (s.close top rest).load r = load r { s with stack := rest } := by
    cases rest with
    | nil => rfl
    | cons parent rest => exact load_pushChild _ _
  rw [hload]
  simp only [load, h, List.foldr_cons]
  omega

/-- Each dependency that is tried leaves less to try, whatever becomes of it. -/
theorem load_tried {r : Registry} {s : Builder} {top : Frame} {rest : List Frame}
    (h : s.stack = top :: rest) (ht : top.tried < (r.dependencies top.file).length) :
    load r { s with stack := { top with tried := top.tried + 1 } :: rest } < s.load r := by
  simp only [load, h, List.foldr_cons]
  omega

theorem length_fresh_cons_lt {r : Registry} {s : Builder} {file : SourceId}
    (hd : r.dependencies file ≠ []) (he : file ∉ s.expanded) :
    (fresh r { s with expanded := file :: s.expanded }).length < (s.fresh r).length := by
  have hm : file ∈ s.fresh r := by
    simp [fresh, Registry.lt_size_of_dependencies_ne_nil hd, he]
  have hfilter : fresh r { s with expanded := file :: s.expanded } =
      (s.fresh r).filter (· ≠ file) := by
    rw [fresh, fresh, List.filter_filter]
    simp [List.mem_cons]
  rw [hfilter]
  exact List.length_filter_lt_length_iff_exists.mpr ⟨file, hm, by simp⟩

theorem step_shrinks {r : Registry} {limit : Option Nat} {s t : Builder}
    (h : step r limit s = some t) :
    Prod.Lex (· < ·) (· < ·) ((t.fresh r).length, t.load r) ((s.fresh r).length, s.load r) := by
  rw [Prod.lex_def]
  unfold step at h
  split at h
  · cases h
  · rename_i top rest hs
    split at h
    · cases h
      exact .inr ⟨by rw [fresh_close], load_close hs⟩
    · rename_i file hn
      have hload := load_tried hs (lt_of_next? hn)
      simp only at h
      split at h
      · cases h
        exact .inr ⟨by rw [fresh_pushChild]; rfl, by rwa [load_pushChild]⟩
      · split at h
        · cases h
          exact .inr ⟨by rw [fresh_pushChild]; rfl, by rwa [load_pushChild]⟩
        · rename_i hd
          split at h
          · cases h
            exact .inr ⟨by rw [fresh_pushChild]; rfl, by rwa [load_pushChild]⟩
          · rename_i he
            cases h
            have hne : r.dependencies file ≠ [] := by
              intro hnil
              simp [hnil] at hd
            exact .inl (length_fresh_cons_lt hne he)

/-- The state in which nothing is left to do. -/
def finish (r : Registry) (limit : Option Nat) (s : Builder) : Builder :=
  match _h : step r limit s with
  | none => s
  | some t => finish r limit t
termination_by ((s.fresh r).length, s.load r)
decreasing_by exact step_shrinks _h

end Builder

end Tree

end SourceBundle
