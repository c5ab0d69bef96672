import SourceBundle.Graph.Basic

/-! # Walking a graph in depth

One machine serves the order of emission and the search for cycles. Its path holds the nodes
entered and not yet left, the latest first, each with the edges still to be tried. A node is
entered once, when it is first met, and left when its edges are used up. The nodes not yet met
and the edges waiting on the path bound the walk.
-/
namespace SourceBundle.Graph

structure Frame where
  node : SourceId
  waiting : List SourceId
deriving DecidableEq, Repr

structure Walk where
  /-- The nodes not met yet, in ascending order. -/
  fresh : List SourceId
  path : List Frame := []
  /-- The nodes left, the latest first. -/
  left : List SourceId := []
deriving DecidableEq, Repr

namespace Walk

def begin (g : Graph) : Walk := { fresh := g.nodes }

/-- The next move; `none` when every node has been left. -/
def step (g : Graph) (s : Walk) : Option Walk :=
  match s.path with
  | [] =>
    match s.fresh with
    | [] => none
    | root :: fresh => some { s with fresh, path := [⟨root, g.dependencies root⟩] }
  | ⟨node, []⟩ :: path => some { s with path, left := node :: s.left }
  | ⟨node, next :: waiting⟩ :: path =>
    if next ∈ s.fresh then
      some { s with
        fresh := s.fresh.erase next
        path := ⟨next, g.dependencies next⟩ :: ⟨node, waiting⟩ :: path }
    else some { s with path := ⟨node, waiting⟩ :: path }

def load (s : Walk) : Nat := s.path.foldr (fun f n => f.waiting.length + 1 + n) 0

theorem step_shrinks {g : Graph} {s t : Walk} (h : step g s = some t) :
    Prod.Lex (· < ·) (· < ·) (t.fresh.length, t.load) (s.fresh.length, s.load) := by
  rw [Prod.lex_def]
  unfold step at h
  split at h
  · split at h
    · cases h
    · rename_i root fresh hf
      cases h
      left
      simp [hf]
  · rename_i node path hp
    cases h
    right
    simp [load, hp]
  · rename_i node next waiting path hp
    split at h
    · rename_i hm
      cases h
      left
      have hl := List.length_erase_of_mem hm
      have hpos := List.length_pos_of_mem hm
      simp only
      omega
    · cases h
      right
      simp [load, hp]

/-- The nodes in the order in which they are left. -/
def finish (g : Graph) (s : Walk) : List SourceId :=
  match _h : step g s with
  | none => s.left.reverse
  | some t => finish g t
termination_by (s.fresh.length, s.load)
decreasing_by exact step_shrinks _h

/-- The nodes of the path, the latest first. -/
def nodes (s : Walk) : List SourceId := s.path.map Frame.node

/-- Where the next edge leads, if to a node that has been entered and not left. -/
def closing? (s : Walk) : Option SourceId :=
  match s.path with
  | ⟨_, next :: _⟩ :: _ => if next ∈ s.fresh ∨ next ∈ s.left then none else some next
  | _ => none

/-- Where a node stands on the path, counted from its start. -/
def position? (s : Walk) (node : SourceId) : Option Nat := s.nodes.reverse.findIdx? (· = node)

/-- The way from a node on the path to its end, and back to the node. For a node that is not on
the path it is the whole path. -/
def loop (s : Walk) (node : SourceId) : List SourceId :=
  s.nodes.reverse.drop ((s.position? node).getD 0) ++ [node]

def findCycle (g : Graph) (s : Walk) : Option (List SourceId) :=
  match s.closing? with
  | some node => some (s.loop node)
  | none =>
    match _h : step g s with
    | none => none
    | some t => findCycle g t
termination_by (s.fresh.length, s.load)
decreasing_by exact step_shrinks _h

end Walk

/-- The nodes, each after everything it needs where that is possible. -/
def order (g : Graph) : List SourceId := (Walk.begin g).finish g

/-- The members of a cycle, the first of them repeated at the end. -/
def cycle? (g : Graph) : Option (List SourceId) := (Walk.begin g).findCycle g

end SourceBundle.Graph
