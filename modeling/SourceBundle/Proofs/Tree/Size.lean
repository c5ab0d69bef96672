import Mathlib.Algebra.Order.BigOperators.Group.Finset
import SourceBundle.Proofs.Tree.Building

/-! # The size of trees

Without a limit a tree shows exactly the files within reach of its root, and expands each of them
that declares anything once. So it has one node for the root and one for each declaration of a file
within reach. The trees of several roots, at any depth, have at most one node for each root, for
each declaration of a root and for each declaration in the registry.
-/
namespace SourceBundle.Tree

variable {r : Registry} {limit : Option Nat} {branch expanded files after : List SourceId}
  {file v w : SourceId} {trees children : List Tree} {tree : Tree}

/-! ## What is shown is within reach -/

theorem Grows.reaches (h : Grows r limit branch expanded files trees after)
    (ht : tree ∈ drawn trees) : ∃ start ∈ files, Relation.ReflTransGen r.Needs start tree.file := by
  induction h with
  | nil => simp at ht
  | leaf _ _ ih =>
    rw [drawn_leaf] at ht
    rcases List.mem_cons.mp ht with rfl | ht
    · exact ⟨_, List.mem_cons_self, .refl⟩
    · obtain ⟨start, hm, hreach⟩ := ih ht
      exact ⟨start, List.mem_cons_of_mem _ hm, hreach⟩
  | expand _ _ _ ihc ihr =>
    rw [drawn] at ht
    rcases List.mem_cons.mp ht with rfl | ht
    · exact ⟨_, List.mem_cons_self, .refl⟩
    · rcases List.mem_append.mp ht with ht | ht
      · obtain ⟨start, hm, hreach⟩ := ihc ht
        exact ⟨_, List.mem_cons_self, (Registry.reaches_of_mem_dependencies hm).trans hreach⟩
      · obtain ⟨start, hm, hreach⟩ := ihr ht
        exact ⟨start, List.mem_cons_of_mem _ hm, hreach⟩

/-! ## What is within reach is shown -/

/-- Nothing more is to be expanded for a file. -/
def Settled (r : Registry) (expanded : List SourceId) (v : SourceId) : Prop :=
  r.dependencies v = [] ∨ v ∈ expanded

theorem Settled.mono (h : Settled r expanded v) (hs : expanded ⊆ after) : Settled r after v :=
  h.imp_right fun hm => hs hm

theorem Grows.subset (h : Grows r limit branch expanded files trees after) : expanded ⊆ after :=
  fun _ hm => h.mem_after_iff.mpr (.inr hm)

/-- Without a limit, nothing is left to be expanded for the files of the list, nor for those that a
file declares which is expanded on the way. -/
theorem Grows.settled (h : Grows r none branch expanded files trees after)
    (hb : branch ⊆ expanded) : (∀ v ∈ files, Settled r after v) ∧
      ∀ v ∈ expansions trees, ∀ w ∈ r.dependencies v, Settled r after w := by
  induction h with
  | nil => simp
  | @leaf branch expanded _ _ file mark _ hl hr ih =>
    obtain ⟨hfiles, hexpanded⟩ := ih hb
    have hfile : Settled r expanded file := by
      cases hl with
      | cycle h => exact .inr (hb h)
      | bare _ hd => exact .inl hd
      | cut _ _ hl => cases hl
      | seen _ _ _ he => exact .inr he
    rw [expansions_leaf]
    exact ⟨List.forall_mem_cons.mpr ⟨hfile.mono hr.subset, hfiles⟩, hexpanded⟩
  | @expand _ expanded middle _ _ file _ _ ho hc hr ihc ihr =>
    have hmiddle : file :: expanded ⊆ middle := hc.subset
    obtain ⟨hchildren, hinner⟩ := ihc (List.cons_subset_cons file hb)
    obtain ⟨hfiles, hexpanded⟩ :=
      ihr fun _ hm => hmiddle (List.mem_cons_of_mem file (hb hm))
    rw [expansions_expand ho.dependencies_ne_nil hc]
    refine ⟨List.forall_mem_cons.mpr ⟨.inr (hr.subset (hmiddle List.mem_cons_self)), hfiles⟩, ?_⟩
    refine List.forall_mem_cons.mpr ⟨fun w hw => (hchildren w hw).mono hr.subset, fun v hv w hw => ?_⟩
    rcases List.mem_append.mp hv with hv | hv
    · exact (hinner v hv w hw).mono hr.subset
    · exact hexpanded v hv w hw

/-! ## One root without a limit -/

/-- The tree of a root with its children grown without a limit. -/
structure Whole (r : Registry) (file : SourceId) (children : List Tree) : Prop where
  forest_eq : forest r none [file] = [node file .plain children]
  grows : ∃ after, Grows r none [file] [file] (r.dependencies file) children after

theorem exists_whole (r : Registry) (file : SourceId) : ∃ children, Whole r file children := by
  obtain ⟨_, hp⟩ := plants_forest r none [file]
  generalize hf : forest r none [file] = trees at hp
  cases hp with
  | cut hl => cases hl
  | root _ hc hr =>
    cases hr
    exact ⟨_, hf, _, hc⟩

theorem Whole.fresh (h : Whole r file children) : (file :: expansions children).Nodup := by
  obtain ⟨after, hg⟩ := h.grows
  exact List.nodup_cons.mpr ⟨fun hm => hg.fresh.not_mem file hm List.mem_cons_self, hg.fresh.nodup⟩

/-- The root is expanded, and so is every file within its reach that declares anything. -/
theorem Whole.settled (h : Whole r file children)
    (hv : Relation.ReflTransGen r.Needs file v) : Settled r (file :: expansions children) v := by
  obtain ⟨after, hg⟩ := h.grows
  obtain ⟨hroot, hinner⟩ := hg.settled (List.Subset.refl [file])
  have hafter : after ⊆ file :: expansions children := by
    intro u hu
    rcases hg.mem_after_iff.mp hu with hu | hu
    · exact List.mem_cons_of_mem file hu
    · exact List.mem_singleton.mp hu ▸ List.mem_cons_self
  induction hv with
  | refl => exact .inr List.mem_cons_self
  | @tail u w _ hstep ih =>
    -- Whoever needs a file declares something, so is expanded and settles that file.
    have hu : u ∈ file :: expansions children :=
      ih.resolve_left fun hd => List.not_mem_nil (hd ▸ hstep.1)
    rcases List.mem_cons.mp hu with rfl | hu
    · exact (hroot w hstep.1).mono hafter
    · exact (hinner u hu w hstep.1).mono hafter

theorem mem_map_drawn_of_complete (ht : tree ∈ drawn trees) (hc : Complete r tree)
    (hv : v ∈ r.dependencies tree.file) : v ∈ (drawn trees).map Tree.file := by
  rw [← hc.shows] at hv
  obtain ⟨child, hchild, rfl⟩ := List.mem_map.mp hv
  exact List.mem_map_of_mem (drawn_children_subset ht (mem_drawn_of_mem hchild))

theorem Whole.exists_complete (h : Whole r file children) (hv : v ∈ file :: expansions children) :
    ∃ tree ∈ drawn [node file .plain children], Complete r tree ∧ tree.file = v := by
  obtain ⟨after, hg⟩ := h.grows
  rw [drawn_singleton]
  rcases List.mem_cons.mp hv with rfl | hv
  · exact ⟨_, List.mem_cons_self, ⟨rfl, hg.map_file⟩, rfl⟩
  · obtain ⟨tree, ht, hne, rfl⟩ := mem_expansions.mp hv
    exact ⟨tree, List.mem_cons_of_mem _ ht, hg.complete ht hne, rfl⟩

/-- The files that are shown are those within reach of the root. -/
theorem Whole.mem_files_iff (h : Whole r file children) :
    v ∈ (drawn [node file .plain children]).map Tree.file ↔
      Relation.ReflTransGen r.Needs file v := by
  constructor
  · intro hv
    obtain ⟨tree, ht, rfl⟩ := List.mem_map.mp hv
    rw [drawn_singleton] at ht
    rcases List.mem_cons.mp ht with rfl | ht
    · exact .refl
    · obtain ⟨after, hg⟩ := h.grows
      obtain ⟨start, hm, hreach⟩ := hg.reaches ht
      exact (Registry.reaches_of_mem_dependencies hm).trans hreach
  · intro hv
    rcases Relation.ReflTransGen.cases_tail hv with rfl | ⟨u, hu, huv⟩
    · rw [drawn_singleton]
      exact List.mem_cons_self
    · obtain ⟨tree, ht, hc, rfl⟩ := h.exists_complete
        ((h.settled hu).resolve_left fun hd => List.not_mem_nil (hd ▸ huv.1))
      exact mem_map_drawn_of_complete ht hc huv.1

theorem Whole.length_drawn (h : Whole r file children) :
    (drawn [node file .plain children]).length = 1 + declared r (file :: expansions children) := by
  obtain ⟨after, hg⟩ := h.grows
  rw [drawn_singleton, List.length_cons, Tree.children, hg.length_drawn, declared_cons]
  omega

theorem declared_eq_sum (h : files.Nodup) :
    declared r files = ∑ v ∈ files.toFinset, (r.dependencies v).length :=
  (List.sum_toFinset _ h).symm

/-- The files within reach that are not expanded declare nothing. -/
theorem Whole.declared_eq_sum (h : Whole r file children) {reached : Finset SourceId}
    (hr : ∀ v, v ∈ reached ↔ Relation.ReflTransGen r.Needs file v) :
    declared r (file :: expansions children) = ∑ v ∈ reached, (r.dependencies v).length := by
  rw [Tree.declared_eq_sum h.fresh]
  refine Finset.sum_subset (fun v hv => ?_) fun v hv hn => ?_
  · obtain ⟨tree, ht, -, rfl⟩ := h.exists_complete (List.mem_toFinset.mp hv)
    exact (hr _).mpr (h.mem_files_iff.mp (List.mem_map_of_mem ht))
  · have hbare := (h.settled ((hr v).mp hv)).resolve_right fun hm => hn (List.mem_toFinset.mpr hm)
    rw [hbare, List.length_nil]

theorem Whole.count_expansions (h : Whole r file children)
    (hv : Relation.ReflTransGen r.Needs file v) (hd : r.dependencies v ≠ []) :
    (expansions [node file .plain children]).count v = 1 := by
  obtain ⟨after, hg⟩ := h.grows
  have hm : v ∈ file :: expansions children := (h.settled hv).resolve_left hd
  by_cases hbare : r.dependencies file = []
  · -- Nothing hangs below the root, so it would be the root that declares something.
    rw [hbare] at hg
    cases hg
    rw [expansions_nil, List.mem_singleton] at hm
    exact absurd hbare (hm ▸ hd)
  · rw [expansions_expand hbare hg, expansions_nil, List.append_nil]
    exact List.count_eq_one_of_mem h.fresh hm

/-! ## Several roots at any depth -/

theorem Plants.fresh (h : Plants r limit expanded files trees after) :
    Fresh expanded (expansions (trees.flatMap Tree.children)) := by
  induction h with
  | nil => exact ⟨by simp, by simp⟩
  | cut _ _ ih => exact ih.mono (List.subset_cons_self _ _)
  | root _ hc _ ih =>
    rw [List.flatMap_cons, expansions_append]
    exact (hc.fresh.append ih fun v => hc.mem_after_iff).mono (List.subset_cons_self _ _)

theorem Plants.length_drawn_le (h : Plants r limit expanded files trees after) :
    (drawn trees).length ≤
      files.length + declared r files + declared r (expansions (trees.flatMap Tree.children)) := by
  induction h with
  | nil => simp
  | @cut _ _ _ file trees _ _ ih =>
    have hbare : (leaf file .plain :: trees).flatMap Tree.children = trees.flatMap Tree.children :=
      rfl
    rw [drawn_leaf, hbare, List.length_cons, List.length_cons, declared_cons]
    omega
  | root _ hc _ ih =>
    rw [drawn, List.length_cons, List.length_append, hc.length_drawn, List.flatMap_cons,
      expansions_append, declared_append, declared_cons, List.length_cons, Tree.children]
    omega

theorem declared_le_sum (h : files.Nodup) :
    declared r files ≤ ∑ v ∈ Finset.range r.size, (r.dependencies v).length := by
  rw [declared_eq_sum h]
  refine Finset.sum_le_sum_of_ne_zero fun v _ hv => ?_
  rw [Finset.mem_range]
  exact Registry.lt_size_of_dependencies_ne_nil (List.ne_nil_of_length_pos (Nat.pos_of_ne_zero hv))

/-- The run that builds the tree of a root without a limit, with no file expanded before it. -/
theorem exists_run (r : Registry) (file : SourceId) :
    ∃ s, Builder.Moves r none (Builder.begin [] file) s ∧ s.step r none = none ∧
      [s.tree] = forest r none [file] := by
  obtain ⟨hmoves, hend⟩ := Builder.moves_finish r none (Builder.begin [] file)
  exact ⟨_, hmoves, hend, rfl⟩

/-- Without a limit the run that builds the tree of a root comes to an end, and with the only tree
that the rules let grow. The tree shows the files within reach of the root; those that declare
anything are expanded once, so that it has one node for the root and one for each declaration of a
file within reach. The trees of several roots expand no file twice below the roots, whatever the
limit, and their size is bounded by what the roots and all files declare. -/
theorem forest_size (r : Registry) :
    (∀ file,
      (∃ s, Builder.Moves r none (Builder.begin [] file) s ∧ s.step r none = none ∧
        [s.tree] = forest r none [file]) ∧
      (∃ after, Plants r none [] [file] (forest r none [file]) after) ∧
      (∀ trees after, Plants r none [] [file] trees after → trees = forest r none [file]) ∧
      ∃ reached : Finset SourceId,
        (∀ v, v ∈ reached ↔ Relation.ReflTransGen r.Needs file v) ∧
        (∀ v, v ∈ (drawn (forest r none [file])).map Tree.file ↔ v ∈ reached) ∧
        (∀ v ∈ reached, r.dependencies v ≠ [] →
          (expansions (forest r none [file])).count v = 1) ∧
        (drawn (forest r none [file])).length = 1 + ∑ v ∈ reached, (r.dependencies v).length) ∧
    ∀ (depth : Option Nat) (files : List SourceId),
      (∀ v, (expansions ((forest r depth files).flatMap Tree.children)).count v ≤ 1) ∧
      (drawn (forest r depth files)).length ≤ files.length +
        (files.map fun file => (r.dependencies file).length).sum +
        ∑ v ∈ Finset.range r.size, (r.dependencies v).length := by
  refine ⟨fun file => ⟨exists_run r file, plants_forest r none [file],
    fun _ _ => forest_eq_of_plants, ?_⟩, fun depth files => ?_⟩
  · obtain ⟨children, h⟩ := exists_whole r file
    rw [h.forest_eq]
    have hr : ∀ v, v ∈ ((drawn [node file .plain children]).map Tree.file).toFinset ↔
        Relation.ReflTransGen r.Needs file v :=
      fun v => List.mem_toFinset.trans h.mem_files_iff
    refine ⟨_, hr, fun v => List.mem_toFinset.symm, fun v hv => h.count_expansions ((hr v).mp hv), ?_⟩
    rw [h.length_drawn, h.declared_eq_sum hr]
  · obtain ⟨after, hp⟩ := plants_forest r depth files
    refine ⟨List.nodup_iff_count_le_one.mp hp.fresh.nodup, hp.length_drawn_le.trans ?_⟩
    exact Nat.add_le_add_left (declared_le_sum hp.fresh.nodup) _

/-- Of the four files of the ring each is expanded once, and each of their ten declarations is shown
once. -/
theorem ring_size :
    (∀ v ∈ [0, 1, 2, 3], Relation.ReflTransGen Registry.ring.Needs 0 v ∧
      (expansions (forest Registry.ring none [0])).count v = 1) ∧
    (drawn (forest Registry.ring none [0])).length = 1 + (4 + 2 + 2 + 2) := by
  obtain ⟨-, -, -, reached, hreached, hshown, hcount, hlength⟩ := (forest_size Registry.ring).1 0
  have hfiles : (drawn (forest Registry.ring none [0])).map file =
      [0, 0, 3, 1, 1, 2, 3, 2, 1, 1, 3] := by
    cbv
  have hfour : reached = {0, 1, 2, 3} := by
    ext v
    rw [← hshown, hfiles]
    simp only [List.mem_cons, List.not_mem_nil, Finset.mem_insert, Finset.mem_singleton]
    tauto
  subst hfour
  have hdeclare : ∀ v ∈ ({0, 1, 2, 3} : Finset SourceId), Registry.ring.dependencies v ≠ [] := by
    decide
  refine ⟨fun v hv => ?_, hlength⟩
  have hm : v ∈ ({0, 1, 2, 3} : Finset SourceId) := by simpa using hv
  exact ⟨(hreached v).mp hm, hcount v hm (hdeclare v hm)⟩

end SourceBundle.Tree
