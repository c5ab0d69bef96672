import SourceBundle.Proofs.Tree.Expansion

/-! # Built trees follow the rules

The builder hangs what grows below its latest open node, whatever nodes are open before that one, and
leaves the node when its files are used up. So the trees that are built are those of the rules, and
the same as those told by recursion. At every moment the branch, the open nodes and the expanded
files are in step.
-/
namespace SourceBundle.Tree

variable {r : Registry} {limit : Option Nat} {n : Nat} {s t u : Builder} {top : Frame}
  {rest : List Frame} {branch expanded files after : List SourceId} {file : SourceId} {mark : Mark}
  {tree : Tree} {trees children : List Tree}

namespace Builder

/-- One move after the other. -/
def Moves (r : Registry) (limit : Option Nat) : Builder → Builder → Prop :=
  Relation.ReflTransGen fun s t => s.step r limit = some t

theorem Moves.refl (s : Builder) : Moves r limit s s := Relation.ReflTransGen.refl

theorem Moves.trans (h : Moves r limit s t) (h' : Moves r limit t u) : Moves r limit s u :=
  Relation.ReflTransGen.trans h h'

theorem Moves.head (h : s.step r limit = some t) (h' : Moves r limit t u) : Moves r limit s u :=
  Relation.ReflTransGen.head h h'

/-! ## Whole runs -/

theorem finish_of_step (h : s.step r limit = some t) : s.finish r limit = t.finish r limit := by
  rw [finish]
  split
  · rename_i hn
    rw [h] at hn
    cases hn
  · rename_i hs
    rw [h] at hs
    rw [Option.some.inj hs]

theorem finish_of_stopped (h : s.step r limit = none) : s.finish r limit = s := by
  rw [finish]
  split
  · rfl
  · rename_i hs
    rw [h] at hs
    cases hs

theorem Moves.finish_eq (h : Moves r limit s t) : s.finish r limit = t.finish r limit := by
  induction h with
  | refl => rfl
  | tail _ h ih => exact ih.trans (finish_of_step h)

/-- Every run comes to an end. -/
theorem moves_finish (r : Registry) (limit : Option Nat) (s : Builder) :
    Moves r limit s (s.finish r limit) ∧ (s.finish r limit).step r limit = none := by
  induction s using finish.induct r limit with
  | case1 s h =>
    rw [finish_of_stopped h]
    exact ⟨.refl s, h⟩
  | case2 s t h ih =>
    rw [finish_of_step h]
    exact ⟨.head h ih.1, ih.2⟩

/-! ## Single moves -/

theorem next?_of_drop {file : SourceId}
    (h : (r.dependencies top.file).drop top.tried = file :: files)
    (hd : isAbove limit top.depth = true) : next? r limit top = some file := by
  rw [next?, if_pos hd, ← List.head?_drop, h]
  rfl

theorem next?_of_drop_nil (h : (r.dependencies top.file).drop top.tried = []) :
    next? r limit top = none := by
  have hnone : (r.dependencies top.file)[top.tried]? = none := by
    rw [← List.head?_drop, h]
    rfl
  rw [next?, hnone, ite_self]

theorem isAbove_succ (hd : isAbove limit n = true) :
    isAbove limit (n + 1) = true ↔ limit ≠ some (n + 1) := by
  cases limit with
  | none => simp [isAbove]
  | some max =>
    simp only [isAbove, Option.all_some, decide_eq_true_eq, ne_eq, Option.some.injEq] at hd ⊢
    omega

theorem not_leaf (hd : r.dependencies file ≠ []) (ha : isAbove limit n = true) :
    ¬((r.dependencies file).isEmpty || !isAbove limit n) = true := by
  simp [hd, ha]

/-- A node when some more of its dependencies have been hung below it. -/
def hang (top : Frame) (trees : List Tree) : Frame :=
  { top with children := top.children ++ trees, tried := top.tried + trees.length }

theorem hang_nil (top : Frame) : hang top [] = top := by
  rw [hang, List.append_nil]
  rfl

theorem hang_hang (top : Frame) (trees others : List Tree) :
    hang (hang top trees) others = hang top (trees ++ others) := by
  simp only [hang, List.append_assoc, List.length_append, Nat.add_assoc]

theorem drop_succ {xs rest : List SourceId} (h : xs.drop n = file :: rest) :
    xs.drop (n + 1) = rest := by
  rw [← List.tail_drop, h, List.tail_cons]

theorem step_leaf (rest : List Frame) (tree : Tree) (hn : next? r limit top = some file)
    (hd : isAbove limit top.depth = true) (hb : branch.length = top.depth + 1)
    (h : Closes r limit branch expanded file mark) :
    step r limit ⟨branch, expanded, top :: rest, tree⟩ =
      some ⟨branch, expanded, hang top [leaf file mark] :: rest, tree⟩ := by
  simp only [step, hn]
  cases h with
  | cycle h => rw [if_pos h]; rfl
  | bare h hdeps => rw [if_neg h, hdeps]; rfl
  | cut h _ hl =>
    have hat : isAbove limit (top.depth + 1) = false :=
      Bool.eq_false_iff.mpr fun ha => (isAbove_succ hd).mp ha (hb ▸ hl)
    rw [if_neg h, hat, Bool.not_false, Bool.or_true]
    rfl
  | seen h hdeps hl he =>
    rw [if_neg h, if_neg (not_leaf hdeps ((isAbove_succ hd).mpr (hb ▸ hl))), if_pos he]
    rfl

theorem step_open (rest : List Frame) (tree : Tree) (hn : next? r limit top = some file)
    (hd : isAbove limit top.depth = true) (hb : branch.length = top.depth + 1)
    (h : Opens r limit branch expanded file) :
    step r limit ⟨branch, expanded, top :: rest, tree⟩ =
      some ⟨file :: branch, file :: expanded,
        { file, depth := top.depth + 1 } :: { top with tried := top.tried + 1 } :: rest, tree⟩ := by
  have hat : isAbove limit (top.depth + 1) = true := (isAbove_succ hd).mpr (hb ▸ h.not_cut)
  simp only [step, hn]
  rw [if_neg h.not_mem_branch, if_neg (not_leaf h.dependencies_ne_nil hat),
    if_neg h.not_mem_expanded]

theorem filter_ne_cons (h : file ∉ branch) : (file :: branch).filter (· ≠ file) = branch := by
  rw [List.filter_cons_of_neg (by simp)]
  refine List.filter_eq_self.mpr fun other hm => decide_eq_true fun he => h (he ▸ hm)

theorem step_close (parent : Frame) (rest : List Frame) (expanded : List SourceId) (tree : Tree)
    (hn : next? r limit top = none) (hb : top.file ∉ branch) :
    step r limit ⟨top.file :: branch, expanded, top :: parent :: rest, tree⟩ =
      some ⟨branch, expanded, { parent with
        children := parent.children ++ [node top.file .plain top.children] } :: rest, tree⟩ := by
  simp only [step, hn, close, pushChild, filter_ne_cons hb]

theorem step_close_root (expanded : List SourceId) (tree : Tree) (hn : next? r limit top = none) :
    step r limit ⟨[top.file], expanded, [top], tree⟩ =
      some ⟨[], expanded, [], node top.file .plain top.children⟩ := by
  simp only [step, hn, close, filter_ne_cons List.not_mem_nil]

end Builder

open Builder

/-! ## The rules -/

/-- The files that the latest open node has still to try are hung below it as the rules say. What is
open before it makes no difference. -/
theorem Grows.moves (h : Grows r limit branch expanded files trees after) (top : Frame)
    (rest : List Frame) (hf : (r.dependencies top.file).drop top.tried = files)
    (hd : isAbove limit top.depth = true) (hb : branch.length = top.depth + 1) :
    Moves r limit ⟨branch, expanded, top :: rest, tree⟩
      ⟨branch, after, hang top trees :: rest, tree⟩ := by
  induction h generalizing top rest with
  | nil =>
    rw [hang_nil]
    exact .refl _
  | @leaf branch expanded files after file mark trees h _ ih =>
    have hstep := step_leaf rest tree (next?_of_drop hf hd) hd hb h
    have hlater := ih (hang top [Tree.leaf file mark]) rest (drop_succ hf) hd hb
    rw [hang_hang] at hlater
    exact .head hstep hlater
  | @expand branch expanded middle files after file children trees h hc _ ihc ihr =>
    -- The new node is opened, filled and closed above the node it belongs to.
    let parent : Frame := { top with tried := top.tried + 1 }
    let child : Frame := { file, depth := top.depth + 1 }
    have hopen := step_open rest tree (next?_of_drop hf hd) hd hb h
    have habove : isAbove limit (top.depth + 1) = true := (isAbove_succ hd).mpr (hb ▸ h.not_cut)
    have hfill := ihc child (parent :: rest) rfl habove (by rw [List.length_cons, hb])
    have hlength : children.length = (r.dependencies file).length := by
      rw [← hc.map_file, List.length_map]
    have hused : (r.dependencies file).drop (0 + children.length) = [] := by
      rw [Nat.zero_add, hlength, List.drop_length]
    have hnone : next? r limit (hang child children) = none := next?_of_drop_nil hused
    have hclose := step_close parent rest middle tree hnone h.not_mem_branch
    have hlater := ihr (hang top [node file .plain children]) rest (drop_succ hf) hd hb
    rw [hang_hang] at hlater
    exact .head hopen (hfill.trans (.head hclose hlater))

theorem step_end (expanded : List SourceId) (tree : Tree) :
    step r limit ⟨[], expanded, [], tree⟩ = none := rfl

theorem build_eq_of_moves (trees : List Tree)
    (h : Moves r limit (begin expanded file) ⟨[file], after, [hang { file, depth := 0 } trees],
      leaf file .plain⟩)
    (hn : next? r limit (hang { file, depth := 0 } trees) = none) :
    build r limit expanded file = (node file .plain trees, after) := by
  have hclose := step_close_root after (Tree.leaf file .plain) hn
  have hend : Moves r limit (begin expanded file) ⟨[], after, [], node file .plain trees⟩ :=
    h.trans (.head hclose (.refl _))
  rw [build, hend.finish_eq, finish_of_stopped (step_end _ _)]

theorem Grows.build_eq (hl : limit ≠ some 0)
    (h : Grows r limit [file] (file :: expanded) (r.dependencies file) children after) :
    build r limit expanded file = (node file .plain children, after) := by
  have habove : isAbove limit 0 = true := by
    cases limit with
    | none => rfl
    | some max => simpa [isAbove, Nat.pos_iff_ne_zero] using hl
  have hlength : children.length = (r.dependencies file).length := by
    rw [← h.map_file, List.length_map]
  refine build_eq_of_moves children (h.moves _ [] rfl habove rfl) (next?_of_drop_nil ?_)
  exact List.drop_eq_nil_of_le (by simp [hang, hlength])

theorem build_eq_of_cut (hl : limit = some 0) :
    build r limit expanded file = (leaf file .plain, file :: expanded) := by
  refine build_eq_of_moves [] (.refl _) ?_
  rw [next?, hl]
  rfl

/-- What the rules say of roots is what is built for them, one after the other. -/
theorem Plants.growAll_build (h : Plants r limit expanded files trees after) :
    growAll (build r limit) expanded files = (trees, after) := by
  induction h with
  | nil => rfl
  | cut hl _ ih => simp only [growAll, build_eq_of_cut hl, ih]
  | root hl hc _ ih => simp only [growAll, hc.build_eq hl, ih]

/-- The trees that are built are those of the recursion with enough room. -/
theorem forest_eq_growAll (r : Registry) (depth : Option Nat) (files : List SourceId) :
    forest r depth files = (growAll (root r (depth.getD (r.size + 1))) [] files).1 := by
  rw [forest, (plants_growAll r depth [] files).growAll_build]

theorem plants_forest (r : Registry) (depth : Option Nat) (files : List SourceId) :
    ∃ after, Plants r depth [] files (forest r depth files) after :=
  ⟨_, forest_eq_growAll r depth files ▸ plants_growAll r depth [] files⟩

theorem forest_eq_of_plants (h : Plants r limit [] files trees after) :
    trees = forest r limit files := by
  rw [forest, h.growAll_build]

/-- Without a limit nothing is cut off: the trees are those of any limit beyond the number of
files. -/
theorem forest_of_size_lt (files : List SourceId) (h : r.size < n) :
    forest r (some n) files = forest r none files := by
  rw [forest_eq_growAll, forest_eq_growAll, Option.getD_some, Option.getD_none, root_eq h]

/-! ## What is in step -/

/-- The branch holds the files of the open nodes, each once and all of them expanded; each open node
is one level deeper than the one before. -/
structure Builder.InStep (s : Builder) : Prop where
  branch_eq : s.branch = s.stack.map Frame.file
  nodup : s.branch.Nodup
  expanded : s.branch ⊆ s.expanded
  depths : s.stack.map Frame.depth = (List.range s.stack.length).reverse

namespace Builder

theorem inStep_begin (expanded : List SourceId) (root : SourceId) :
    (begin expanded root).InStep :=
  ⟨rfl, by simp [begin], by simp [begin], rfl⟩

/-- What hangs below the open nodes makes no difference, nor how much of it has been tried. -/
theorem InStep.congr (h : s.InStep) (hb : t.branch = s.branch) (he : t.expanded = s.expanded)
    (hf : t.stack.map Frame.file = s.stack.map Frame.file)
    (hd : t.stack.map Frame.depth = s.stack.map Frame.depth) : t.InStep := by
  have hlength : t.stack.length = s.stack.length := by
    rw [← List.length_map Frame.file, hf, List.length_map]
  exact ⟨by rw [hb, hf, h.branch_eq], hb ▸ h.nodup, hb ▸ he ▸ h.expanded,
    by rw [hd, hlength, h.depths]⟩

theorem InStep.pushChild (h : s.InStep) (tree : Tree) : (s.pushChild tree).InStep := by
  unfold Builder.pushChild
  split
  · exact h
  · rename_i hs
    exact h.congr rfl rfl (by rw [hs]; rfl) (by rw [hs]; rfl)

theorem InStep.close (h : s.InStep) (hs : s.stack = top :: rest) :
    InStep (s.close top rest) := by
  have hbranch : s.branch = top.file :: rest.map Frame.file := by
    rw [h.branch_eq, hs, List.map_cons]
  have hnodup := List.nodup_cons.mp (hbranch ▸ h.nodup)
  have hdepths := h.depths
  rw [hs, List.map_cons, List.length_cons, List.range_succ, List.reverse_append] at hdepths
  have hpopped : InStep { s with branch := s.branch.filter (· ≠ top.file), stack := rest } := by
    refine ⟨?_, h.nodup.filter _, fun _ hm => h.expanded (List.mem_of_mem_filter hm),
      (List.cons.inj hdepths).2⟩
    rw [hbranch, filter_ne_cons hnodup.1]
  cases rest with
  | nil => exact hpopped.congr rfl rfl rfl rfl
  | cons parent rest => exact hpopped.pushChild _

theorem InStep.push (h : s.InStep) (top : Frame) (hs : s.stack = top :: rest)
    (hf : file ∉ s.branch) :
    InStep { s with
      branch := file :: s.branch
      expanded := file :: s.expanded
      stack := { file, depth := top.depth + 1 } :: s.stack } := by
  have hdepth : top.depth = rest.length := by
    have hdepths := h.depths
    rw [hs, List.map_cons, List.length_cons, List.range_succ, List.reverse_append] at hdepths
    exact (List.cons.inj hdepths).1
  refine ⟨?_, List.nodup_cons.mpr ⟨hf, h.nodup⟩, List.cons_subset_cons file h.expanded, ?_⟩
  · rw [List.map_cons, h.branch_eq]
  · rw [List.map_cons, h.depths, List.length_cons, @List.range_succ s.stack.length,
      List.reverse_append, hs, List.length_cons, hdepth]
    rfl

theorem InStep.step (h : s.InStep) (hstep : s.step r limit = some t) : t.InStep := by
  unfold Builder.step at hstep
  split at hstep
  · cases hstep
  · rename_i top rest hs
    split at hstep
    · cases hstep
      exact h.close hs
    · rename_i file _
      have htried : InStep { s with stack := { top with tried := top.tried + 1 } :: rest } :=
        h.congr rfl rfl (by rw [hs]; rfl) (by rw [hs]; rfl)
      simp only at hstep
      split at hstep
      · cases hstep
        exact htried.pushChild _
      · rename_i hf
        split at hstep
        · cases hstep
          exact htried.pushChild _
        · split at hstep
          · cases hstep
            exact htried.pushChild _
          · cases hstep
            exact htried.push { top with tried := top.tried + 1 } rfl hf

theorem InStep.moves (h : s.InStep) (hm : Moves r limit s t) : t.InStep := by
  induction hm with
  | refl => exact h
  | tail _ hstep ih => exact ih.step hstep

end Builder

end SourceBundle.Tree
