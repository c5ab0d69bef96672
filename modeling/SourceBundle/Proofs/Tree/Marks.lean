import SourceBundle.Proofs.Tree.Building

/-! # Marks tell the truth

A file is marked as a cycle where it stands below itself and nowhere else. A file marked as seen has
been shown with all that it declares, in a part of the drawing that is complete. A node without a
mark shows all that its file declares, unless it is as deep as the limit.
-/
namespace SourceBundle.Tree

/-- What a node says is so, below a way of files and after the nodes that are complete. The expanded
files are those of which nothing is known but that they were expanded before. -/
structure Truthful (r : Registry) (limit : Option Nat) (way expanded : List SourceId)
    (done : List Tree) (tree : Tree) : Prop where
  within : ∀ depth, limit = some depth → way.length ≤ depth
  cycle : tree.mark = .cycle ↔ tree.file ∈ way
  seen : tree.mark = .seen → r.dependencies tree.file ≠ [] ∧ limit ≠ some way.length ∧
    (tree.file ∈ expanded ∨ ∃ other ∈ done, other.file = tree.file ∧ Complete r other)
  full : tree.mark = .plain → limit ≠ some way.length → Complete r tree
  bare : tree.children ≠ [] → tree.mark = .plain ∧ limit ≠ some way.length

variable {r : Registry} {limit : Option Nat} {branch way expanded files after : List SourceId}
  {file : SourceId} {mark : Mark} {trees children above done rest : List Tree} {tree : Tree}

theorem Truthful.not_mem_way (h : Truthful r limit way expanded done tree)
    (hm : tree.mark = .seen) : tree.file ∉ way := by
  intro hw
  have hcycle := h.cycle.mpr hw
  rw [hm] at hcycle
  cases hcycle

/-- More may be known of the files expanded before: that they are complete. -/
theorem Truthful.weaken (h : Truthful r limit way after rest tree) (hd : rest ⊆ done)
    (hk : tree.mark = .seen → tree.file ∈ after →
      tree.file ∈ expanded ∨ ∃ other ∈ done, other.file = tree.file ∧ Complete r other) :
    Truthful r limit way expanded done tree := by
  refine ⟨h.within, h.cycle, fun hm => ?_, h.full, h.bare⟩
  obtain ⟨hne, hl, he | ⟨other, ho, hother⟩⟩ := h.seen hm
  · exact ⟨hne, hl, hk hm he⟩
  · exact ⟨hne, hl, .inr ⟨other, hd ho, hother⟩⟩

theorem Closes.truthful (h : Closes r limit branch expanded file mark)
    (hb : ∀ depth, limit = some depth → branch.length ≤ depth) :
    Truthful r limit branch expanded done (leaf file mark) := by
  have hbare : (leaf file mark).children = [] := rfl
  cases h with
  | cycle h => exact ⟨hb, iff_of_true rfl h, nofun, nofun, fun hn => absurd hbare hn⟩
  | bare h hd =>
    exact ⟨hb, iff_of_false nofun h, nofun, fun _ _ => ⟨rfl, hd.symm⟩, fun hn => absurd hbare hn⟩
  | cut h _ hl =>
    exact ⟨hb, iff_of_false nofun h, nofun, fun _ hn => absurd hl hn, fun hn => absurd hbare hn⟩
  | seen h hd hl he =>
    exact ⟨hb, iff_of_false nofun h, fun _ => ⟨hd, hl, .inl he⟩, nofun, fun hn => absurd hbare hn⟩

theorem truthful_node {done : List Tree} (hb : ∀ depth, limit = some depth → way.length ≤ depth)
    (hw : file ∉ way) (hl : limit ≠ some way.length)
    (hc : children.map Tree.file = r.dependencies file) :
    Truthful r limit way expanded done (node file .plain children) :=
  ⟨hb, iff_of_false nofun hw, nofun, fun _ _ => ⟨rfl, hc⟩, fun _ => ⟨rfl, hl⟩⟩

/-- What has been expanded below a node is complete once the node is. -/
theorem Grows.complete_of_mem_after
    (h : Grows r limit branch (file :: expanded) (r.dependencies file) children after) {v : SourceId}
    (hv : v ∈ after) : v ∈ expanded ∨
      ∃ other ∈ drawn [node file .plain children], other.file = v ∧ Complete r other := by
  rw [drawn_singleton]
  rcases h.mem_after_iff.mp hv with hv | hv
  · obtain ⟨other, ho, hne, rfl⟩ := mem_expansions.mp hv
    exact .inr ⟨other, List.mem_cons_of_mem _ ho, rfl, h.complete ho hne⟩
  · rcases List.mem_cons.mp hv with rfl | hv
    · exact .inr ⟨_, List.mem_cons_self, rfl, rfl, h.map_file⟩
    · exact .inl hv

theorem Truthful.later
    (hc : Grows r limit branch (file :: expanded) (r.dependencies file) children after)
    (h : Truthful r limit way after rest tree) :
    Truthful r limit way expanded (drawn [node file .plain children] ++ rest) tree := by
  refine h.weaken (List.subset_append_right _ _) fun _ hm => ?_
  refine (hc.complete_of_mem_after hm).imp_right ?_
  rintro ⟨other, ho, hother⟩
  exact ⟨other, List.mem_append_left rest ho, hother⟩

theorem Truthful.under (h : Truthful r limit way (file :: expanded) done tree)
    (hf : file ∈ way) : Truthful r limit way expanded done tree := by
  refine h.weaken (List.Subset.refl done) fun hm he => .inl ?_
  rcases List.mem_cons.mp he with he | he
  · exact absurd (he ▸ hf) (h.not_mem_way hm)
  · exact he

theorem Grows.truthful (h : Grows r limit branch expanded files trees after)
    (hb : ∀ depth, limit = some depth → branch.length ≤ depth)
    (hs : Stands trees above done tree) :
    Truthful r limit (above.map Tree.file ++ branch) expanded done tree := by
  induction h generalizing above done with
  | nil => exact absurd hs Stands.not_nil
  | leaf hl _ ih =>
    rcases hs.cases_cons with ⟨rfl, rfl, rfl⟩ | ⟨front, rfl, hfront⟩ | ⟨rest, rfl, hrest⟩
    · exact hl.truthful hb
    · exact absurd hfront Stands.not_nil
    · exact (ih hb hrest).weaken (List.subset_append_right _ _) fun _ he => .inl he
  | @expand branch _ _ _ _ file _ _ ho hc _ ihc ihr =>
    rcases hs.cases_cons with ⟨rfl, rfl, rfl⟩ | ⟨front, rfl, hfront⟩ | ⟨rest, rfl, hrest⟩
    · exact truthful_node hb ho.not_mem_branch ho.not_cut hc.map_file
    · have hlt : ∀ depth, limit = some depth → (file :: branch).length ≤ depth := by
        rintro depth rfl
        have hle := hb depth rfl
        have hne := ho.not_cut
        rw [List.length_cons]
        simp only [ne_eq, Option.some.injEq] at hne
        omega
      rw [List.map_append, List.append_assoc]
      exact (ihc hlt hfront).under (List.mem_append_right _ List.mem_cons_self)
    · exact (ihr hb hrest).later hc

theorem Plants.truthful (h : Plants r limit expanded files trees after)
    (hs : Stands trees above done tree) :
    Truthful r limit (above.map Tree.file) expanded done tree := by
  have hnil : ∀ depth, limit = some depth → ([] : List SourceId).length ≤ depth :=
    fun _ _ => Nat.zero_le _
  induction h generalizing above done with
  | nil => exact absurd hs Stands.not_nil
  | cut hl _ ih =>
    rcases hs.cases_cons with ⟨rfl, rfl, rfl⟩ | ⟨front, rfl, hfront⟩ | ⟨rest, rfl, hrest⟩
    · exact ⟨hnil, iff_of_false nofun List.not_mem_nil, nofun, fun _ hn => absurd hl hn,
        fun hn => absurd rfl hn⟩
    · exact absurd hfront Stands.not_nil
    · -- Only roots are shown, and a root is not marked as seen.
      have h := ih hrest
      refine h.weaken (List.subset_append_right _ _) fun hm _ => ?_
      have hroot := Nat.le_zero.mp (h.within 0 hl)
      exact absurd (hroot ▸ hl) (h.seen hm).2.1
  | @root _ _ _ _ file _ _ hl hc _ ih =>
    rcases hs.cases_cons with ⟨rfl, rfl, rfl⟩ | ⟨front, rfl, hfront⟩ | ⟨rest, rfl, hrest⟩
    · exact truthful_node hnil List.not_mem_nil hl hc.map_file
    · have hlt : ∀ depth, limit = some depth → [file].length ≤ depth := by
        rintro depth rfl
        exact Nat.pos_of_ne_zero fun he => hl (congrArg some he)
      rw [List.map_append]
      exact (hc.truthful hlt hfront).under (List.mem_append_right _ List.mem_cons_self)
    · exact (ih hrest).later hc

theorem forest_truthful {depth : Option Nat} (hs : Stands (forest r depth files) above done tree) :
    Truthful r depth (above.map Tree.file) [] done tree := by
  obtain ⟨after, hp⟩ := plants_forest r depth files
  exact hp.truthful hs

/-- At every moment of building a tree, the branch holds the files of the open nodes, each once and
all of them expanded. A drawing has a line for each node, in which a cycle and a file shown before
are told by a note behind the name. Every node stands below those above it and after those that are
complete. It is marked as a cycle if and only if it stands below a node of the same file. If it is
marked as seen, it hides what its file declares, which an earlier node of that file outside its
branch shows. Without a mark it shows, in order, one node for each dependency that its file declares,
unless it is as deep as the limit. -/
theorem forest_marks (r : Registry) (depth : Option Nat) (files : List SourceId) :
    (∀ expanded file s, Builder.Moves r depth (Builder.begin expanded file) s → s.InStep) ∧
    (∀ base, ∃ lines, draw r base (forest r depth files) = String.join (lines.map (· ++ "\n")) ∧
      List.Forall₂ (Line (label r base)) lines (drawn (forest r depth files))) ∧
    (∀ label, List.Forall₂ (Line label) ((forest r depth files).flatMap (lines label "" ""))
      (drawn (forest r depth files))) ∧
    (∀ before tree after, drawn (forest r depth files) = before ++ tree :: after →
      ∃ above done, Stands (forest r depth files) above done tree ∧ (done ++ above).Perm before) ∧
    ∀ above done tree, Stands (forest r depth files) above done tree →
      (tree.mark = .cycle ↔ ∃ other ∈ above, other.file = tree.file) ∧
      (tree.mark = .seen → tree.children = [] ∧ ∃ other ∈ done, other.file = tree.file ∧
        other.mark = .plain ∧ other.children.map Tree.file = r.dependencies other.file ∧
        other.children ≠ []) ∧
      (tree.mark = .plain → depth ≠ some above.length →
        tree.children.map Tree.file = r.dependencies tree.file) ∧
      (tree.children ≠ [] → tree.mark = .plain ∧ depth ≠ some above.length) := by
  refine ⟨fun expanded file _ hm => (Builder.inStep_begin expanded file).moves hm,
    fun base => ⟨_, rfl, forall₂_lines _ _⟩, fun label => forall₂_lines label _,
    fun _ _ _ => exists_stands, fun above done tree hs => ?_⟩
  have h := forest_truthful hs
  have hlength : (above.map Tree.file).length = above.length := List.length_map _
  refine ⟨h.cycle.trans List.mem_map, fun hm => ?_, fun hm hd => (h.full hm (hlength ▸ hd)).shows,
    fun hn => hlength ▸ h.bare hn⟩
  obtain ⟨hne, -, he | ⟨other, ho, hfile, hc⟩⟩ := h.seen hm
  · cases he
  · have hleaf : tree.children = [] := by
      by_contra hn
      have hplain := (h.bare hn).1
      rw [hm] at hplain
      cases hplain
    exact ⟨hleaf, other, ho, hfile, hc.plain, hc.shows, hc.ne_nil (hfile ▸ hne)⟩

/-- The last file below the top of the ring points to where it has been shown, and the ring is closed
by a file that stands above itself. Both lines say so. -/
theorem ring_marks :
    (∃ above done, Stands (forest Registry.ring none [0]) above done (leaf 3 .seen) ∧
      ∃ other ∈ done, other.file = 3 ∧ other.children.map Tree.file = [1, 1]) ∧
    (∃ above done, Stands (forest Registry.ring none [0]) above done (leaf 3 .cycle) ∧
      ∃ other ∈ above, other.file = 3) ∧
    (forest Registry.ring none [0]).flatMap (lines (label Registry.ring []) "" "") =
      ["top", "├─ top (cycle)", "├─ c", "│  ├─ a", "│  │  ├─ a (cycle)", "│  │  └─ b",
        "│  │     ├─ c (cycle)", "│  │     └─ b (cycle)", "│  └─ a (see above)",
        "├─ a (see above)", "└─ c (see above)"] := by
  obtain ⟨-, -, -, hnodes, hmarks⟩ := forest_marks Registry.ring none [0]
  have hlast : drawn (forest Registry.ring none [0]) =
      (drawn (forest Registry.ring none [0])).take 10 ++ leaf 3 .seen :: [] := by
    cbv
  have hclosed : drawn (forest Registry.ring none [0]) =
      (drawn (forest Registry.ring none [0])).take 6 ++ leaf 3 .cycle ::
        (drawn (forest Registry.ring none [0])).drop 7 := by
    cbv
  obtain ⟨above, done, hs, -⟩ := hnodes _ _ _ hlast
  obtain ⟨-, hseen, -⟩ := hmarks _ _ _ hs
  obtain ⟨-, other, ho, hfile, -, hshows, -⟩ := hseen rfl
  obtain ⟨branch, front, hbelow, -⟩ := hnodes _ _ _ hclosed
  refine ⟨⟨above, done, hs, other, ho, hfile, ?_⟩, ⟨branch, front, hbelow, ?_⟩, ?_⟩
  · rw [hshows, hfile]
    rfl
  · exact (hmarks _ _ _ hbelow).1.mp rfl
  · cbv

end SourceBundle.Tree
