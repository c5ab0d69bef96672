import Mathlib.Data.List.Forall2
import Mathlib.Data.List.Perm.Basic
import SourceBundle.Tree

/-! # Nodes of a forest

A forest is read in the order in which it is drawn: a node, what hangs below it, the next one. What
has been read before a node either stands above it or is complete.
-/
namespace SourceBundle.Tree

def file : Tree → SourceId
  | node file _ _ => file

def mark : Tree → Mark
  | node _ mark _ => mark

def children : Tree → List Tree
  | node _ _ children => children

/-- The nodes of a forest, in the order in which they are drawn. -/
def drawn : List Tree → List Tree
  | [] => []
  | node file mark children :: trees => node file mark children :: (drawn children ++ drawn trees)

def isExpanded (tree : Tree) : Bool := !tree.children.isEmpty

/-- The files that are expanded in a forest, in the order in which they are drawn. -/
def expansions (trees : List Tree) : List SourceId :=
  ((drawn trees).filter isExpanded).map file

variable {trees before after above done : List Tree} {tree parent child : Tree} {v : SourceId}

@[simp] theorem drawn_nil : drawn [] = [] := by rw [drawn]

theorem drawn_cons (tree : Tree) (trees : List Tree) :
    drawn (tree :: trees) = tree :: (drawn tree.children ++ drawn trees) := by
  cases tree
  rw [drawn, children]

theorem drawn_leaf (file : SourceId) (mark : Mark) (trees : List Tree) :
    drawn (leaf file mark :: trees) = leaf file mark :: drawn trees := by
  rw [leaf, drawn, drawn_nil, List.nil_append]

theorem drawn_singleton (tree : Tree) : drawn [tree] = tree :: drawn tree.children := by
  rw [drawn_cons, drawn_nil, List.append_nil]

theorem drawn_append (trees others : List Tree) :
    drawn (trees ++ others) = drawn trees ++ drawn others := by
  induction trees with
  | nil => rw [List.nil_append, drawn_nil, List.nil_append]
  | cons tree trees ih =>
    rw [List.cons_append, drawn_cons, drawn_cons, ih, List.cons_append, List.append_assoc]

theorem mem_drawn_of_mem (h : tree ∈ trees) : tree ∈ drawn trees := by
  obtain ⟨before, after, rfl⟩ := List.append_of_mem h
  rw [drawn_append, drawn_cons]
  exact List.mem_append_right _ List.mem_cons_self

/-- What hangs below a node that is drawn is drawn too. -/
theorem drawn_children_subset (h : tree ∈ drawn trees) : drawn tree.children ⊆ drawn trees := by
  induction trees using drawn.induct with
  | case1 => simp at h
  | case2 file mark children trees ihc iht =>
    rw [drawn] at h ⊢
    rcases List.mem_cons.mp h with rfl | h
    · exact List.subset_cons_of_subset _ (List.subset_append_left _ _)
    · rcases List.mem_append.mp h with h | h
      · exact List.subset_cons_of_subset _ (List.subset_append_of_subset_left _ (ihc h))
      · exact List.subset_cons_of_subset _ (List.subset_append_of_subset_right _ (iht h))

@[simp] theorem expansions_nil : expansions [] = [] := by simp [expansions]

theorem expansions_append (trees others : List Tree) :
    expansions (trees ++ others) = expansions trees ++ expansions others := by
  rw [expansions, drawn_append, List.filter_append, List.map_append, expansions, expansions]

theorem expansions_cons_of_expanded (h : tree.children ≠ []) (trees : List Tree) :
    expansions (tree :: trees) = tree.file :: (expansions tree.children ++ expansions trees) := by
  have he : tree.isExpanded = true := by simpa [isExpanded] using h
  rw [expansions, drawn_cons, List.filter_cons_of_pos he, List.filter_append, List.map_cons,
    List.map_append, expansions, expansions]

theorem expansions_cons_of_leaf (h : tree.children = []) (trees : List Tree) :
    expansions (tree :: trees) = expansions trees := by
  have he : ¬tree.isExpanded = true := by simp [isExpanded, h]
  rw [expansions, drawn_cons, List.filter_cons_of_neg he, h, drawn_nil, List.nil_append, expansions]

theorem mem_expansions : v ∈ expansions trees ↔
    ∃ tree ∈ drawn trees, tree.children ≠ [] ∧ tree.file = v := by
  simp [expansions, isExpanded, and_assoc]

/-! ## Where nodes stand -/

/-- Where a node stands in a forest: below some nodes, the nearest first, and after others, which
are complete when it is drawn. -/
inductive Stands (trees : List Tree) : List Tree → List Tree → Tree → Prop
  | root {before after : List Tree} {tree : Tree} (h : trees = before ++ tree :: after) :
    Stands trees [] (drawn before) tree
  | child {above done before after : List Tree} {parent tree : Tree}
      (hp : Stands trees above done parent) (h : parent.children = before ++ tree :: after) :
    Stands trees (parent :: above) (done ++ drawn before) tree

namespace Stands

theorem not_nil : ¬Stands [] above done tree := by
  intro h
  induction h with
  | root h => simp at h
  | child _ _ ih => exact ih

theorem under (h : Stands tree.children above done child) :
    Stands (tree :: trees) (above ++ [tree]) done child := by
  induction h with
  | @root before _ _ h =>
    have hroot : Stands (tree :: trees) [] (drawn []) tree := .root rfl
    simpa using hroot.child h
  | child _ h ih => exact ih.child h

theorem later (h : Stands trees above done child) :
    Stands (tree :: trees) above (drawn [tree] ++ done) child := by
  induction h with
  | root h =>
    rw [← drawn_append]
    exact .root (congrArg (tree :: ·) h)
  | child _ h ih =>
    rw [← List.append_assoc]
    exact ih.child h

/-- A node of a forest is its first root, stands below it, or stands in the rest of the forest. -/
theorem cases_cons (h : Stands (tree :: trees) above done child) :
    (above = [] ∧ done = [] ∧ child = tree) ∨
    (∃ front, above = front ++ [tree] ∧ Stands tree.children front done child) ∨
    ∃ rest, done = drawn [tree] ++ rest ∧ Stands trees above rest child := by
  induction h with
  | @root before after child h =>
    cases before with
    | nil =>
      cases h
      exact .inl ⟨rfl, drawn_nil, rfl⟩
    | cons first before =>
      obtain ⟨rfl, rfl⟩ := List.cons.inj h
      exact .inr (.inr ⟨drawn before, by rw [← drawn_append]; rfl, .root rfl⟩)
  | @child above done before after parent child _ h ih =>
    rcases ih with ⟨rfl, rfl, rfl⟩ | ⟨front, rfl, hfront⟩ | ⟨rest, rfl, hrest⟩
    · exact .inr (.inl ⟨[], rfl, by simpa using Stands.root h⟩)
    · exact .inr (.inl ⟨parent :: front, rfl, hfront.child h⟩)
    · exact .inr (.inr ⟨rest ++ drawn before, by rw [List.append_assoc], hrest.child h⟩)

theorem exists_child (h : Stands trees above done parent) (hc : child ∈ parent.children) :
    ∃ done, Stands trees (parent :: above) done child := by
  obtain ⟨before, after, hsplit⟩ := List.append_of_mem hc
  exact ⟨_, h.child hsplit⟩

/-- What stands above a node stands nearer to the roots, and something hangs below it. -/
theorem of_mem_above (h : Stands trees above done child) (hm : tree ∈ above) :
    ∃ front back done, above = front ++ tree :: back ∧ Stands trees back done tree ∧
      tree.children ≠ [] := by
  induction h with
  | root => cases hm
  | @child above done _ _ parent _ hp hsplit ih =>
    rcases List.mem_cons.mp hm with rfl | hm
    · exact ⟨[], above, done, rfl, hp, by simp [hsplit]⟩
    · obtain ⟨front, back, done, rfl, hs⟩ := ih hm
      exact ⟨parent :: front, back, done, rfl, hs⟩

/-- What is drawn before a node stands above it or is complete. -/
theorem exists_split (h : Stands trees above done child) :
    ∃ before after, drawn trees = before ++ drawn [child] ++ after ∧
      (done ++ above).Perm before := by
  induction h with
  | @root before after child h =>
    refine ⟨drawn before, drawn after, ?_, by rw [List.append_nil]⟩
    rw [h, ← drawn_append, ← drawn_append, List.append_assoc]
    rfl
  | @child above done before after parent child _ h ih =>
    obtain ⟨front, back, hsplit, hperm⟩ := ih
    refine ⟨front ++ parent :: drawn before, drawn after ++ back, ?_, ?_⟩
    · rw [hsplit, drawn_singleton, h, drawn_append, drawn_cons child, drawn_singleton]
      simp
    · calc
        (done ++ drawn before ++ parent :: above).Perm (done ++ above ++ parent :: drawn before) := by
          rw [List.append_assoc, List.append_assoc]
          refine List.Perm.append_left done ?_
          exact List.perm_append_comm.trans (List.perm_middle.symm)
        List.Perm _ (front ++ parent :: drawn before) := hperm.append_right _

theorem mem_drawn (h : Stands trees above done child) : child ∈ drawn trees := by
  obtain ⟨before, after, hsplit, -⟩ := h.exists_split
  rw [hsplit, drawn_singleton]
  simp

theorem mem_drawn_of_mem_done (h : Stands trees above done child) (hm : tree ∈ done) :
    tree ∈ drawn trees := by
  obtain ⟨before, after, hsplit, hperm⟩ := h.exists_split
  have hbefore : tree ∈ before := hperm.subset (List.mem_append_left above hm)
  rw [hsplit, List.append_assoc]
  exact List.mem_append_left _ hbefore

end Stands

/-- Where two lists meet, a member stands in one or the other. -/
theorem split_append {α : Type} {xs ys before after : List α} {x : α}
    (h : xs ++ ys = before ++ x :: after) :
    (∃ middle, xs = before ++ x :: middle) ∨
      ∃ middle, before = xs ++ middle ∧ ys = middle ++ x :: after := by
  rcases List.append_eq_append_iff.mp h with ⟨middle, hbefore, hys⟩ | ⟨middle, hxs, hafter⟩
  · exact .inr ⟨middle, hbefore, hys⟩
  · rcases List.cons_eq_append_iff.mp hafter with ⟨rfl, hys⟩ | ⟨middle, rfl, -⟩
    · exact .inr ⟨[], by rw [hxs, List.append_nil, List.append_nil], hys⟩
    · exact .inl ⟨middle, hxs⟩

/-- Every node that is drawn stands somewhere. -/
theorem exists_stands (h : drawn trees = before ++ tree :: after) :
    ∃ above done, Stands trees above done tree ∧ (done ++ above).Perm before := by
  induction trees using drawn.induct generalizing before after with
  | case1 => simp at h
  | case2 file mark children trees ihc iht =>
    rw [drawn] at h
    cases before with
    | nil =>
      obtain ⟨rfl, -⟩ := List.cons.inj h
      exact ⟨[], drawn [], .root rfl, by simp⟩
    | cons first before =>
      obtain ⟨rfl, hrest⟩ := List.cons.inj h
      rcases split_append hrest with ⟨middle, hchildren⟩ | ⟨middle, rfl, htrees⟩
      · obtain ⟨above, done, hs, hperm⟩ := ihc hchildren
        have hunder : Stands (node file mark children :: trees)
            (above ++ [node file mark children]) done tree := .under hs
        refine ⟨_, done, hunder, ?_⟩
        rw [← List.append_assoc]
        exact List.perm_append_comm.trans (hperm.cons _)
      · obtain ⟨above, done, hs, hperm⟩ := iht htrees
        refine ⟨above, _, hs.later, ?_⟩
        rw [List.append_assoc, drawn_singleton]
        exact (hperm.append_left _).cons _

/-! ## Lines -/

/-- What the lines that join the nodes leave in front of a file. -/
inductive Margin : String → Prop
  | none : Margin ""
  | more {margin piece : String} (h : Margin margin) (hp : piece ∈ ["├─ ", "└─ ", "│  ", "   "]) :
    Margin (margin ++ piece)

/-- A line that shows a file behind a margin. The note behind it tells how the node is marked. -/
structure Line (label : SourceId → String) (line : String) (tree : Tree) : Prop where
  plain : tree.mark = .plain → ∃ margin, Margin margin ∧ line = margin ++ label tree.file
  cycle : tree.mark = .cycle →
    ∃ margin, Margin margin ∧ line = margin ++ label tree.file ++ " (cycle)"
  seen : tree.mark = .seen →
    ∃ margin, Margin margin ∧ line = margin ++ label tree.file ++ " (see above)"

theorem Margin.line (label : SourceId → String) {margin : String} (h : Margin margin)
    (file : SourceId) (mark : Mark) (children : List Tree) :
    Line label (margin ++ label file ++ mark.text) (node file mark children) := by
  refine ⟨?_, ?_, ?_⟩ <;> rintro rfl
  · exact ⟨margin, h, String.append_empty⟩
  · exact ⟨margin, h, rfl⟩
  · exact ⟨margin, h, rfl⟩

theorem forall₂_childLines (label : SourceId → String) {margin : String} (h : Margin margin)
    (trees : List Tree) :
    List.Forall₂ (Line label) (childLines label margin trees) (drawn trees) := by
  induction trees using drawn.induct generalizing margin with
  | case1 =>
    rw [drawn_nil]
    exact .nil
  | case2 file mark children trees ihc iht =>
    have hlines : ∀ first rest, Margin first → Margin rest → List.Forall₂ (Line label)
        (lines label first rest (node file mark children))
        (node file mark children :: drawn children) :=
      fun _ _ hfirst hrest => .cons (hfirst.line label _ _ _) (ihc hrest)
    cases trees with
    | nil =>
      rw [drawn, drawn_nil, List.append_nil]
      exact hlines _ _ (h.more (by simp)) (h.more (by simp))
    | cons tree trees =>
      rw [drawn]
      exact List.rel_append (hlines _ _ (h.more (by simp)) (h.more (by simp))) (iht h)

/-- A drawing has one line for each node, in the order of the nodes. -/
theorem forall₂_lines (label : SourceId → String) (trees : List Tree) :
    List.Forall₂ (Line label) (trees.flatMap (lines label "" "")) (drawn trees) := by
  induction trees with
  | nil =>
    rw [drawn_nil]
    exact .nil
  | cons tree trees ih =>
    have hfirst : List.Forall₂ (Line label) (lines label "" "" tree) (drawn [tree]) := by
      cases tree
      rw [drawn_singleton]
      exact .cons (Margin.none.line label _ _ _) (forall₂_childLines label .none _)
    rw [← List.singleton_append, drawn_append]
    exact List.rel_append hfirst ih

end SourceBundle.Tree
