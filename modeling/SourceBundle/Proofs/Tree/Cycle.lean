import SourceBundle.Proofs.Discovery.Entries
import SourceBundle.Proofs.Graph.Report
import SourceBundle.Proofs.Tree.Building

/-! # Trees show the cycles

A file marked as a cycle below another file is needed by a file that it needs. And where no such
mark is shown, the needs of every file come to an end: a file seen before had been settled, or is
on the branch and would be marked. So the trees below the entries show a cycle if and only if the
files cannot be ordered.
-/
namespace SourceBundle

namespace Registry

/-- Following what a file needs comes to an end, whichever way is taken. -/
def Grounded (r : Registry) (i : SourceId) : Prop := Acc (fun j i => r.Needs i j) i

variable {r : Registry} {i j : SourceId}

theorem grounded_of_dependencies (h : ∀ j ∈ r.dependencies i, j = i ∨ r.Grounded j) :
    r.Grounded i :=
  .intro i fun j hj => (h j hj.1).resolve_left hj.2

theorem Grounded.not_transGen (h : r.Grounded i) : ¬Relation.TransGen r.Needs i i := by
  induction h with
  | intro i _ ih =>
    intro hc
    obtain ⟨j, hij, hji⟩ := Relation.TransGen.head'_iff.mp hc
    exact ih j hij (.tail' hji hij)

theorem Grounded.of_reaches (h : r.Grounded i) (hj : Relation.ReflTransGen r.Needs i j) :
    r.Grounded j := by
  induction hj with
  | refl => exact h
  | tail _ hj ih => exact ih.inv hj

end Registry

namespace Tree

variable {r : Registry} {room : Nat} {branch expanded files : List SourceId}
  {file parent : SourceId} {tree sub : Tree} {trees others : List Tree}

/-- A tree stands somewhere in a forest: as one of its trees or below one. -/
inductive Occurs (trees : List Tree) : Tree → Prop
  | root {tree : Tree} (h : tree ∈ trees) : Occurs trees tree
  | child {tree child : Tree} (h : Occurs trees tree) (hc : child ∈ tree.children) :
    Occurs trees child

theorem Occurs.mono (h : trees ⊆ others) (ht : Occurs trees tree) : Occurs others tree := by
  induction ht with
  | root hm => exact .root (h hm)
  | child _ hc ih => exact .child ih hc

theorem Occurs.trans (h : Occurs trees tree) (hs : Occurs tree.children sub) :
    Occurs trees sub := by
  induction hs with
  | root hm => exact .child h hm
  | child _ hc ih => exact .child ih hc

/-- Somewhere a file is marked as a cycle below another file. -/
def ShowsCycle (trees : List Tree) : Prop :=
  ∃ tree file, Occurs trees tree ∧ leaf file .cycle ∈ tree.children ∧ file ≠ tree.file

/-! ## What is shown is there -/

/-- A tree below a branch: it shows under a file what that file declares, and marks as a cycle only
what is on the branch. -/
inductive Hangs (r : Registry) : List SourceId → Tree → Prop
  | node {branch : List SourceId} {file : SourceId} {mark : Mark} {children : List Tree}
      (hm : mark = .cycle → file ∈ branch)
      (hd : ∀ child ∈ children, child.file ∈ r.dependencies file)
      (hc : ∀ child ∈ children, Hangs r (file :: branch) child) :
      Hangs r branch (node file mark children)

theorem hangs_leaf {mark : Mark} (h : mark = .cycle → file ∈ branch) :
    Hangs r branch (leaf file mark) :=
  .node h (fun _ hm => absurd hm List.not_mem_nil) fun _ hm => absurd hm List.not_mem_nil

theorem hangs_expand (h : ∀ branch stage file, (grow r room branch stage file).1.file = file ∧
      Hangs r branch (grow r room branch stage file).1) :
    Hangs r branch (node file .plain (expand r room branch expanded file).1) := by
  refine .node (fun hm => Mark.noConfusion hm) (fun child hc => ?_) fun child hc => ?_
  all_goals obtain ⟨stage, dependency, hm, rfl⟩ := exists_of_mem_growAll hc
  · exact (h _ stage dependency).1.symm ▸ hm
  · exact (h _ stage dependency).2

theorem Shown.hangs {grown : Tree × List SourceId} (h : Shown r room branch expanded file grown)
    (ih : ∀ n, room = n + 1 → ∀ branch stage file, (grow r n branch stage file).1.file = file ∧
      Hangs r branch (grow r n branch stage file).1) :
    grown.1.file = file ∧ Hangs r branch grown.1 := by
  cases h with
  | cycle _ _ hb => exact ⟨rfl, hangs_leaf fun _ => hb⟩
  | bare => exact ⟨rfl, hangs_leaf fun hm => Mark.noConfusion hm⟩
  | cut => exact ⟨rfl, hangs_leaf fun hm => Mark.noConfusion hm⟩
  | seen => exact ⟨rfl, hangs_leaf fun hm => Mark.noConfusion hm⟩
  | new room => exact ⟨rfl, hangs_expand (ih room rfl)⟩

theorem hangs_grow (r : Registry) (room : Nat) (branch expanded : List SourceId)
    (file : SourceId) : (grow r room branch expanded file).1.file = file ∧
      Hangs r branch (grow r room branch expanded file).1 := by
  induction room generalizing branch expanded file with
  | zero =>
    refine (shown_grow r 0 branch expanded file).hangs fun n hn => ?_
    cases hn
  | succ room ih =>
    refine (shown_grow r (room + 1) branch expanded file).hangs fun n hn => ?_
    cases hn
    exact ih

theorem hangs_forest (depth : Option Nat) (h : tree ∈ forest r depth files) : Hangs r [] tree := by
  rw [forest_eq_growAll] at h
  obtain ⟨stage, file, -, rfl⟩ := exists_of_mem_growAll h
  cases depth.getD (r.size + 1) with
  | zero => exact hangs_leaf fun hm => Mark.noConfusion hm
  | succ room => exact hangs_expand (hangs_grow r room)

/-- A tree of a forest hangs below a branch of files that lead to its own. -/
theorem Occurs.exists_branch (ht : Occurs trees tree) (h : ∀ tree ∈ trees, Hangs r [] tree) :
    ∃ branch, Hangs r branch tree ∧
      ∀ file ∈ branch, Relation.ReflTransGen r.Needs file tree.file := by
  induction ht with
  | root hm => exact ⟨[], h _ hm, fun _ hb => absurd hb List.not_mem_nil⟩
  | @child tree child _ hc ih =>
    obtain ⟨branch, hangs, hbranch⟩ := ih
    cases hangs with
    | @node _ file _ _ _ hd hchildren =>
      have hstep := Registry.reaches_of_mem_dependencies (hd child hc)
      refine ⟨file :: branch, hchildren child hc, fun other hother => ?_⟩
      rcases List.mem_cons.mp hother with rfl | hother
      · exact hstep
      · exact (hbranch other hother).trans hstep

/-- What a mark below a tree of a forest says: the file is declared there, and leads there. -/
theorem Occurs.cycle_leaf (ht : Occurs trees tree) (h : ∀ tree ∈ trees, Hangs r [] tree)
    (hc : leaf file .cycle ∈ tree.children) : file ∈ r.dependencies tree.file ∧
      Relation.ReflTransGen r.Needs file tree.file := by
  obtain ⟨branch, hangs, hbranch⟩ := ht.exists_branch h
  cases hangs with
  | node _ hd hchildren =>
    refine ⟨hd _ hc, ?_⟩
    cases hchildren _ hc with
    | node hm =>
      rcases List.mem_cons.mp (hm rfl) with rfl | hb
      · exact .refl
      · exact hbranch file hb

theorem transGen_of_showsCycle {depth : Option Nat} (h : ShowsCycle (forest r depth files)) :
    ∃ i, Relation.TransGen r.Needs i i := by
  obtain ⟨tree, file, ht, hc, hne⟩ := h
  obtain ⟨hd, hback⟩ := ht.cycle_leaf (fun _ => hangs_forest depth) hc
  exact ⟨file, .tail' hback ⟨hd, hne⟩⟩

/-! ## What is there is shown -/

/-- No cycle is shown, neither within the trees nor by their roots below a file. -/
structure Quiet (parent : SourceId) (trees : List Tree) : Prop where
  roots : ∀ file, leaf file .cycle ∈ trees → file = parent
  within : ¬ShowsCycle trees

theorem ShowsCycle.mono (h : trees ⊆ others) (hc : ShowsCycle trees) : ShowsCycle others := by
  obtain ⟨tree, file, ht, hfile⟩ := hc
  exact ⟨tree, file, ht.mono h, hfile⟩

theorem Quiet.mono (h : Quiet parent others) (ht : trees ⊆ others) : Quiet parent trees :=
  ⟨fun file hm => h.roots file (ht hm), fun hc => h.within (hc.mono ht)⟩

theorem quiet_children {children : List Tree} {mark : Mark}
    (h : ¬ShowsCycle [node file mark children]) : Quiet file children := by
  have hroot : Occurs [node file mark children] (node file mark children) :=
    .root List.mem_cons_self
  refine ⟨fun other hm => by_contra fun hne => h ⟨_, other, hroot, hm, hne⟩, ?_⟩
  rintro ⟨tree, other, ht, hc⟩
  exact h ⟨tree, other, hroot.trans ht, hc⟩

/-- Growing one tree after the other: what holds of the files expanded is kept, and what a step
says of its file holds of all files, as long as the trees are fine. -/
theorem growAll_induction {step : List SourceId → SourceId → Tree × List SourceId}
    {P : List SourceId → Prop} {Q : SourceId → Prop} {Fine : List Tree → Prop}
    (hmono : ∀ trees others, trees ⊆ others → Fine others → Fine trees)
    (hstep : ∀ expanded, ∀ file ∈ files, P expanded → Fine [(step expanded file).1] →
      P (step expanded file).2 ∧ Q file)
    (hp : P expanded) (hf : Fine (growAll step expanded files).1) :
    P (growAll step expanded files).2 ∧ ∀ file ∈ files, Q file := by
  induction files generalizing expanded with
  | nil => exact ⟨hp, fun _ hm => absurd hm List.not_mem_nil⟩
  | cons file files ih =>
    have hhead : Fine [(step expanded file).1] :=
      hmono _ _ (List.cons_subset_cons _ (List.nil_subset _)) hf
    obtain ⟨hp, hq⟩ := hstep expanded file List.mem_cons_self hp hhead
    obtain ⟨hp, hqs⟩ := ih (fun expanded file hm => hstep expanded file (List.mem_cons_of_mem _ hm))
      hp (hmono _ _ (List.subset_cons_self _ _) hf)
    exact ⟨hp, List.forall_mem_cons.mpr ⟨hq, hqs⟩⟩

/-- Every file expanded is on the branch or grounded. -/
def Held (r : Registry) (branch expanded : List SourceId) : Prop :=
  ∀ file ∈ expanded, file ∈ branch ∨ r.Grounded file

theorem Held.cons (h : Held r branch expanded) (file : SourceId) :
    Held r (file :: branch) (file :: expanded) :=
  List.forall_mem_cons.mpr ⟨.inl List.mem_cons_self, fun other hm =>
    (h other hm).imp_left (List.mem_cons_of_mem file)⟩

theorem Held.of_grounded (h : Held r (file :: branch) expanded) (hf : r.Grounded file) :
    Held r branch expanded := by
  intro other hm
  rcases h other hm with hb | hg
  · rcases List.mem_cons.mp hb with rfl | hb
    · exact .inr hf
    · exact .inl hb
  · exact .inr hg

theorem held_expand (h : ∀ stage, ∀ other ∈ r.dependencies file, Held r (file :: branch) stage →
      Quiet file [(grow r room (file :: branch) stage other).1] →
      Held r (file :: branch) (grow r room (file :: branch) stage other).2 ∧
        (other = file ∨ r.Grounded other))
    (hx : Held r branch expanded) (hq : Quiet file (expand r room branch expanded file).1) :
    Held r branch (expand r room branch expanded file).2 ∧ r.Grounded file := by
  obtain ⟨hheld, hall⟩ := growAll_induction (fun _ _ ht hq => Quiet.mono hq ht) h (hx.cons file) hq
  have hf := Registry.grounded_of_dependencies hall
  exact ⟨hheld.of_grounded hf, hf⟩

theorem Shown.held {grown : Tree × List SourceId}
    (h : Shown r room (parent :: branch) expanded file grown)
    (hr : Roomy r room (parent :: branch)) (hx : Held r (parent :: branch) expanded)
    (hq : Quiet parent [grown.1])
    (ih : ∀ n, room = n + 1 → Roomy r n (file :: parent :: branch) → ∀ stage other,
      Held r (file :: parent :: branch) stage →
      Quiet file [(grow r n (file :: parent :: branch) stage other).1] →
      Held r (file :: parent :: branch) (grow r n (file :: parent :: branch) stage other).2 ∧
        (other = file ∨ r.Grounded other)) :
    Held r (parent :: branch) grown.2 ∧ (file = parent ∨ r.Grounded file) := by
  cases h with
  | cycle => exact ⟨hx, .inl (hq.roots file List.mem_cons_self)⟩
  | bare _ _ hb hd => exact ⟨hx, .inr (Registry.grounded_of_dependencies (by simp [hd]))⟩
  | cut _ hb hd =>
    obtain ⟨_, hroom, -⟩ := hr.exists_succ hb (Registry.lt_size_of_dependencies_ne_nil hd)
    cases hroom
  | seen _ hb _ he => exact ⟨hx, .inr ((hx file he).resolve_left hb)⟩
  | new room hb hd he =>
    obtain ⟨m, hm, hroom⟩ := hr.exists_succ hb (Registry.lt_size_of_dependencies_ne_nil hd)
    obtain rfl := Nat.succ.inj hm
    obtain ⟨hheld, hf⟩ := held_expand (fun stage other _ => ih room rfl hroom stage other) hx
      (quiet_children hq.within)
    exact ⟨hheld, .inr hf⟩

theorem held_grow (hr : Roomy r room (parent :: branch)) (hx : Held r (parent :: branch) expanded)
    (hq : Quiet parent [(grow r room (parent :: branch) expanded file).1]) :
    Held r (parent :: branch) (grow r room (parent :: branch) expanded file).2 ∧
      (file = parent ∨ r.Grounded file) := by
  induction room generalizing parent branch expanded file with
  | zero =>
    refine (shown_grow r 0 (parent :: branch) expanded file).held hr hx hq fun n hn => ?_
    cases hn
  | succ room ih =>
    refine (shown_grow r (room + 1) (parent :: branch) expanded file).held hr hx hq fun n hn => ?_
    cases hn
    exact fun hroom stage other hx hq => ih hroom hx hq

theorem held_root (hlt : file < r.size) (hx : Held r [] expanded)
    (hq : ¬ShowsCycle [(root r (r.size + 1) expanded file).1]) :
    Held r [] (root r (r.size + 1) expanded file).2 ∧ r.Grounded file := by
  obtain ⟨m, hm, hroom⟩ := (roomy_nil r.size.le_succ).exists_succ List.not_mem_nil hlt
  obtain rfl := Nat.succ.inj hm
  exact held_expand (fun stage other _ hx hq => held_grow hroom hx hq) hx (quiet_children hq)

/-- Where no cycle is shown, the roots are grounded. -/
theorem grounded_of_not_showsCycle (hlt : ∀ file ∈ files, file < r.size)
    (h : ¬ShowsCycle (forest r none files)) : ∀ file ∈ files, r.Grounded file := by
  have hmono : ∀ trees others, trees ⊆ others → ¬ShowsCycle others → ¬ShowsCycle trees :=
    fun _ _ ht hn hc => hn (hc.mono ht)
  have hnone : Held r [] [] := fun _ hm => absurd hm List.not_mem_nil
  have hstep : ∀ expanded, ∀ file ∈ files, Held r [] expanded →
      ¬ShowsCycle [(root r (r.size + 1) expanded file).1] →
      Held r [] (root r (r.size + 1) expanded file).2 ∧ r.Grounded file :=
    fun _ file hm hx hq => held_root (hlt file hm) hx hq
  rw [forest_eq_growAll] at h
  exact (growAll_induction hmono hstep hnone h).2

/-- The trees below the entries show a cycle if and only if the files cannot be ordered because of
one. A file marked as a cycle below itself names itself, which is no edge. That no limit is set
means that any limit beyond the number of files gives the same trees. -/
theorem forest_showsCycle_iff (w : Workspace) (charset : Charset) (entries : List String)
    (d : Discovered) (h : (discover w charset entries).value = .ok d) :
    (ShowsCycle (forest d.registry none d.entries) ↔
      ∃ cycle, d.registry.graph = .error (.cycleDetected cycle)) ∧
    (∀ tree file, Occurs (forest d.registry none d.entries) tree →
      leaf file .cycle ∈ tree.children → file = tree.file →
        tree.file ∈ d.registry.dependencies tree.file ∧
          ¬(Graph.ofRegistry d.registry).Needs tree.file tree.file) ∧
    ∀ depth, d.registry.size < depth →
      forest d.registry (some depth) d.entries = forest d.registry none d.entries := by
  obtain ⟨starts, -, hc⟩ := Discovery.discover_complete h
  rw [Registry.graph_isCycle_iff hc.inRange]
  refine ⟨⟨transGen_of_showsCycle, ?_⟩, ?_, fun depth => forest_of_size_lt d.entries⟩
  · rintro ⟨i, hi⟩
    by_contra hn
    have hgrounded := grounded_of_not_showsCycle
      (fun _ hm => Discovery.lt_size_of_mem_entries h hm) hn
    obtain ⟨k, hik, -⟩ := Relation.TransGen.head'_iff.mp hi
    obtain ⟨entry, hm, hreach⟩ :=
      Discovery.exists_entry_needs h (Registry.lt_size_of_mem_dependencies hik.1)
    exact ((hgrounded entry hm).of_reaches hreach).not_transGen hi
  · rintro tree file ht hleaf rfl
    refine ⟨(ht.cycle_leaf (fun _ => hangs_forest none) hleaf).1, ?_⟩
    rw [Registry.needs_ofRegistry]
    exact fun hself => hself.2 rfl

/-! ## Two files that need each other -/

/-- Each of the two files names the other, and the first names itself too. -/
def knot : Workspace where
  current := []
  files := ⟨[
    (["a"], .file (Text.Utf8.encode "/*requires b*//*requires a*/x".toList)),
    (["b"], .file (Text.Utf8.encode "/*requires a*/y".toList))]⟩

def knotFound : Discovered :=
  ⟨⟨[⟨["a"], some ['x'], [1, 0]⟩, ⟨["b"], some ['y'], [0]⟩], by decide⟩, [0]⟩

theorem discover_knot : (discover knot .utf8 ["a"]).value = .ok knotFound := by
  have hentries : Discovery.enterAll knot .empty ["a"] =
      .ok (⟨[{ location := ["a"] }], by decide⟩, [0]) := by
    cbv
  have ha : (Discovery.visit knot .utf8 ⟨[{ location := ["a"] }], by decide⟩
      0 { location := ["a"] }).value =
        .ok (⟨[⟨["a"], some ['x'], [1, 0]⟩, { location := ["b"] }], by decide⟩, [1, 0]) := by
    cbv
  have hb : (Discovery.visit knot .utf8
      ⟨[⟨["a"], some ['x'], [1, 0]⟩, { location := ["b"] }], by decide⟩
      1 { location := ["b"] }).value = .ok (knotFound.registry, []) := by
    cbv
  have hskip : ∀ source, knotFound.registry.source? 0 = some source → source.isRead = true := by
    rintro source ⟨⟩
    rfl
  exact Discovery.discover_of_advances hentries <| .head (.read _ 0 [] _ _ _ _ rfl rfl ha) <|
    .head (.read _ 1 [0] _ _ _ _ rfl rfl hb) <| .single (.skip _ 0 [] _ hskip)

/-- The first file is marked below the second, which shows the cycle, and below itself. -/
theorem knot_showsCycle : (discover knot .utf8 ["a"]).value = .ok knotFound ∧
    ShowsCycle (forest knotFound.registry none [0]) ∧
    (0 ∈ knotFound.registry.dependencies 0 ∧ ¬(Graph.ofRegistry knotFound.registry).Needs 0 0) ∧
    forest knotFound.registry (some 3) [0] = forest knotFound.registry none [0] := by
  obtain ⟨hiff, hself, hdepth⟩ := forest_showsCycle_iff knot .utf8 ["a"] knotFound discover_knot
  have hforest : forest knotFound.registry none knotFound.entries =
      [node 0 .plain [node 1 .plain [leaf 0 .cycle], leaf 0 .cycle]] := by cbv
  refine ⟨discover_knot, hiff.mpr ⟨"/a -> /b -> /a", by cbv⟩, ?_, hdepth 3 (by decide)⟩
  rw [hforest] at hself
  exact hself _ 0 (.root List.mem_cons_self) (List.mem_cons_of_mem _ List.mem_cons_self) rfl

end Tree

end SourceBundle
