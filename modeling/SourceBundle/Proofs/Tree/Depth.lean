import SourceBundle.Proofs.Discovery.Closure
import SourceBundle.Proofs.Tree.Marks

/-! # What a limit leaves to be seen

Nothing stands deeper than the limit. But a file that is expanded near the limit is not expanded once
more nearer to the root, so that what is cut off below it may not be shown at all, though fewer
directives lead to it than the limit allows. The files that are shown are those to which directives
lead that pass no file nearer to the root than where it is expanded.
-/
namespace SourceBundle.Tree

/-- A file is expanded so many levels below a root. -/
def ExpandsAt (trees : List Tree) (depth : Nat) (v : SourceId) : Prop :=
  ∃ above done tree, Stands trees above done tree ∧ above.length = depth ∧ tree.children ≠ [] ∧
    tree.file = v

/-- A file is expanded no deeper than this, if it is expanded at all. -/
def Near (trees : List Tree) (depth : Nat) (v : SourceId) : Prop :=
  v ∈ expansions trees → ∃ n ≤ depth, ExpandsAt trees n v

/-- So many directives lead to a file, one after the other, each of them in a file that may be
passed there. -/
inductive Reached (r : Registry) (passes : Nat → SourceId → Prop) (start : SourceId) :
    Nat → SourceId → Prop
  | start : Reached r passes start 0 start
  | step {n : Nat} {u v : SourceId} (h : Reached r passes start n u) (hp : passes n u)
      (hd : v ∈ r.dependencies u) : Reached r passes start (n + 1) v

variable {r : Registry} {depth : Option Nat} {limit n : Nat} {files : List SourceId}
  {file u v : SourceId} {above done : List Tree} {tree : Tree}

theorem Reached.mono {passes passes' : Nat → SourceId → Prop} (h : Reached r passes file n v)
    (hp : ∀ m u, Reached r passes file m u → passes' m u) : Reached r passes' file n v := by
  induction h with
  | start => exact .start
  | step h _ hd ih => exact ih.step (hp _ _ h) hd

theorem Stands.complete (hs : Stands (forest r depth files) above done tree)
    (hn : tree.children ≠ []) : Complete r tree := by
  have h := forest_truthful hs
  exact h.full (h.bare hn).1 (h.bare hn).2

theorem exists_root (r : Registry) (depth : Option Nat) (file : SourceId) :
    ∃ tree, forest r depth [file] = [tree] ∧ tree.file = file := by
  obtain ⟨after, hp⟩ := plants_forest r depth [file]
  generalize forest r depth [file] = trees at hp
  cases hp with
  | cut _ hr =>
    cases hr
    exact ⟨_, rfl, rfl⟩
  | root _ _ hr =>
    cases hr
    exact ⟨_, rfl, rfl⟩

/-- Above the limit, a file that declares anything is expanded there or elsewhere. -/
theorem Stands.mem_expansions (hs : Stands (forest r depth files) above done tree)
    (hl : depth ≠ some above.length) (hd : r.dependencies tree.file ≠ []) :
    tree.file ∈ expansions (forest r depth files) := by
  have h := forest_truthful hs
  rw [Tree.mem_expansions]
  cases hm : tree.mark with
  | plain =>
    have hc : Complete r tree := h.full hm (by rwa [List.length_map])
    exact ⟨tree, hs.mem_drawn, hc.ne_nil hd, rfl⟩
  | cycle =>
    obtain ⟨other, ho, hfile⟩ := List.mem_map.mp (h.cycle.mp hm)
    obtain ⟨_, _, _, -, hother, hne⟩ := hs.of_mem_above ho
    exact ⟨other, hother.mem_drawn, hne, hfile⟩
  | seen =>
    obtain ⟨-, -, he | ⟨other, ho, hfile, hc⟩⟩ := h.seen hm
    · cases he
    · exact ⟨other, hs.mem_drawn_of_mem_done ho, hc.ne_nil (hfile ▸ hd), hfile⟩

theorem ExpandsAt.exists_stands (h : ExpandsAt (forest r depth files) n u)
    (hd : v ∈ r.dependencies u) :
    ∃ above done tree, Stands (forest r depth files) above done tree ∧ above.length = n + 1 ∧
      tree.file = v := by
  obtain ⟨above, done, parent, hs, rfl, hne, rfl⟩ := h
  rw [← (hs.complete hne).shows] at hd
  obtain ⟨child, hc, rfl⟩ := List.mem_map.mp hd
  obtain ⟨_, hchild⟩ := hs.exists_child hc
  exact ⟨_, _, child, hchild, rfl, rfl⟩

/-- What directives lead to that pass each expanded file no nearer than it is expanded is shown, as
near to the root as they lead. -/
theorem Reached.exists_stands (h : Reached r (Near (forest r (some limit) [file])) file n v)
    (hn : n ≤ limit) :
    ∃ above done tree, Stands (forest r (some limit) [file]) above done tree ∧
      above.length ≤ n ∧ tree.file = v := by
  induction h with
  | start =>
    obtain ⟨tree, hroot, hfile⟩ := exists_root r (some limit) file
    have hs : Stands [tree] [] (drawn []) tree := .root rfl
    exact ⟨[], _, tree, hroot ▸ hs, Nat.le_refl 0, hfile⟩
  | @step n u v _ hp hd ih =>
    obtain ⟨above, done, tree, hs, hle, rfl⟩ := ih (Nat.le_of_succ_le hn)
    have hl : some limit ≠ some above.length := by
      rw [ne_eq, Option.some.injEq]
      omega
    obtain ⟨m, hm, hexpands⟩ := hp (hs.mem_expansions hl (List.ne_nil_of_mem hd))
    obtain ⟨above, done, child, hchild, hlength, hfile⟩ := hexpands.exists_stands hd
    exact ⟨above, done, child, hchild, by omega, hfile⟩

/-- The directives that lead down the branches pass each file where it is expanded. -/
theorem Stands.reached (hs : Stands (forest r depth [file]) above done tree) :
    Reached r (Near (forest r depth [file])) file above.length tree.file := by
  induction hs with
  | @root before after tree h =>
    obtain ⟨root, hroot, hfile⟩ := exists_root r depth file
    have hmem : tree ∈ [root] := by
      rw [← hroot, h]
      exact List.mem_append_right before List.mem_cons_self
    rw [List.mem_singleton.mp hmem, hfile]
    exact .start
  | @child above done before after parent tree hp h ih =>
    have hmem : tree ∈ parent.children := by simp [h]
    have hne : parent.children ≠ [] := List.ne_nil_of_mem hmem
    refine ih.step (fun _ => ⟨_, Nat.le_refl _, above, done, parent, hp, rfl, hne, rfl⟩) ?_
    rw [← (hp.complete hne).shows]
    exact List.mem_map_of_mem hmem

/-- Under a limit nothing stands deeper than that. A file is shown if and only if no more directives
than the limit lead to it that pass each expanded file no nearer to the root than where it is
expanded. So where no file is expanded deeper than directives lead to it, all files are shown to
which no more directives lead than the limit allows. -/
theorem forest_limited (r : Registry) (limit : Nat) (file : SourceId) :
    (∀ above done tree, Stands (forest r (some limit) [file]) above done tree →
      above.length ≤ limit) ∧
    (∀ v, v ∈ (drawn (forest r (some limit) [file])).map Tree.file ↔
      ∃ n ≤ limit, Reached r (Near (forest r (some limit) [file])) file n v) ∧
    ((∀ n u, Reached r (fun _ _ => True) file n u → Near (forest r (some limit) [file]) n u) →
      ∀ n ≤ limit, ∀ v, Reached r (fun _ _ => True) file n v →
        v ∈ (drawn (forest r (some limit) [file])).map Tree.file) := by
  have hwithin : ∀ above done tree, Stands (forest r (some limit) [file]) above done tree →
      above.length ≤ limit := by
    intro above done tree hs
    have hle := (forest_truthful hs).within limit rfl
    rwa [List.length_map] at hle
  have hshown : ∀ v, v ∈ (drawn (forest r (some limit) [file])).map Tree.file ↔
      ∃ n ≤ limit, Reached r (Near (forest r (some limit) [file])) file n v := by
    intro v
    constructor
    · intro hv
      obtain ⟨tree, ht, rfl⟩ := List.mem_map.mp hv
      obtain ⟨before, after, hsplit⟩ := List.append_of_mem ht
      obtain ⟨above, done, hs, -⟩ := Tree.exists_stands hsplit
      exact ⟨_, hwithin above done tree hs, hs.reached⟩
    · rintro ⟨n, hn, h⟩
      obtain ⟨above, done, tree, hs, -, rfl⟩ := h.exists_stands hn
      exact List.mem_map_of_mem hs.mem_drawn
  exact ⟨hwithin, hshown, fun hnear n hn v hv => (hshown v).mpr ⟨n, hn, hv.mono hnear⟩⟩

/-- Two levels below the top of the ring every expanded file is expanded where it is first declared,
so all that two directives lead to is shown. -/
theorem ring_limited :
    (∀ n u, Reached Registry.ring (fun _ _ => True) 0 n u →
      Near (forest Registry.ring (some 2) [0]) n u) ∧
    ∀ v, Reached Registry.ring (fun _ _ => True) 0 2 v →
      v ∈ (drawn (forest Registry.ring (some 2) [0])).map Tree.file := by
  have hroot : forest Registry.ring (some 2) [0] = [] ++ node 0 .plain
      [leaf 0 .cycle, node 3 .plain [leaf 1 .plain, leaf 1 .plain],
        node 1 .plain [leaf 1 .cycle, leaf 2 .plain], leaf 3 .seen] :: [] := by cbv
  have htop := Stands.root hroot
  obtain ⟨_, hthree⟩ := htop.exists_child (List.mem_cons_of_mem _ List.mem_cons_self)
  obtain ⟨_, hone⟩ := htop.exists_child
    (List.mem_cons_of_mem _ (List.mem_cons_of_mem _ List.mem_cons_self))
  have hexpands : expansions (forest Registry.ring (some 2) [0]) = [0, 3, 1] := by cbv
  have hnear : ∀ n u, Reached Registry.ring (fun _ _ => True) 0 n u →
      Near (forest Registry.ring (some 2) [0]) n u := by
    intro n u hu hm
    cases hu with
    | start => exact ⟨0, Nat.le_refl 0, _, _, _, htop, rfl, List.cons_ne_nil _ _, rfl⟩
    | step _ _ _ =>
      rw [hexpands] at hm
      simp only [List.mem_cons, List.not_mem_nil, or_false] at hm
      rcases hm with rfl | rfl | rfl
      · exact ⟨0, Nat.zero_le _, _, _, _, htop, rfl, List.cons_ne_nil _ _, rfl⟩
      · exact ⟨1, Nat.le_add_left 1 _, _, _, _, hthree, rfl, List.cons_ne_nil _ _, rfl⟩
      · exact ⟨1, Nat.le_add_left 1 _, _, _, _, hone, rfl, List.cons_ne_nil _ _, rfl⟩
  obtain ⟨-, -, hall⟩ := forest_limited Registry.ring 2 0
  exact ⟨hnear, hall hnear 2 (Nat.le_refl 2)⟩

/-! ## A file that a limit hides -/

/-- The third file is first met behind the second one, two levels below the first, which names it
too. -/
def shortcut : Workspace where
  current := []
  files := ⟨[
    (["m"], .file (Text.Utf8.encode "/*requires a*//*requires x*/".toList)),
    (["a"], .file (Text.Utf8.encode "/*requires x*/".toList)),
    (["x"], .file (Text.Utf8.encode "/*requires y*/".toList)),
    (["y"], .file (Text.Utf8.encode "/*requires z*/".toList)),
    (["z"], .file [])]⟩

def shortcutFound : Discovered :=
  ⟨⟨[⟨["m"], some [], [1, 2]⟩, ⟨["a"], some [], [2]⟩, ⟨["x"], some [], [3]⟩,
    ⟨["y"], some [], [4]⟩, ⟨["z"], some [], []⟩], by decide⟩, [0]⟩

theorem discover_shortcut : (discover shortcut .utf8 ["m"]).value = .ok shortcutFound := by
  have hentries : Discovery.enterAll shortcut .empty ["m"] =
      .ok (⟨[{ location := ["m"] }], by decide⟩, [0]) := by
    cbv
  have hmain : (Discovery.visit shortcut .utf8 ⟨[{ location := ["m"] }], by decide⟩
      0 { location := ["m"] }).value =
        .ok (⟨[⟨["m"], some [], [1, 2]⟩, { location := ["a"] },
          { location := ["x"] }], by decide⟩, [1, 2]) := by
    cbv
  have ha : (Discovery.visit shortcut .utf8
      ⟨[⟨["m"], some [], [1, 2]⟩, { location := ["a"] }, { location := ["x"] }],
        by decide⟩ 1 { location := ["a"] }).value =
        .ok (⟨[⟨["m"], some [], [1, 2]⟩, ⟨["a"], some [], [2]⟩,
          { location := ["x"] }], by decide⟩, [2]) := by
    cbv
  have hx : (Discovery.visit shortcut .utf8
      ⟨[⟨["m"], some [], [1, 2]⟩, ⟨["a"], some [], [2]⟩, { location := ["x"] }],
        by decide⟩ 2 { location := ["x"] }).value =
        .ok (⟨[⟨["m"], some [], [1, 2]⟩, ⟨["a"], some [], [2]⟩,
          ⟨["x"], some [], [3]⟩, { location := ["y"] }], by decide⟩, [3]) := by
    cbv
  have hy : (Discovery.visit shortcut .utf8
      ⟨[⟨["m"], some [], [1, 2]⟩, ⟨["a"], some [], [2]⟩, ⟨["x"], some [], [3]⟩,
        { location := ["y"] }], by decide⟩ 3 { location := ["y"] }).value =
        .ok (⟨[⟨["m"], some [], [1, 2]⟩, ⟨["a"], some [], [2]⟩,
          ⟨["x"], some [], [3]⟩, ⟨["y"], some [], [4]⟩, { location := ["z"] }],
          by decide⟩, [4]) := by
    cbv
  have hz : (Discovery.visit shortcut .utf8
      ⟨[⟨["m"], some [], [1, 2]⟩, ⟨["a"], some [], [2]⟩, ⟨["x"], some [], [3]⟩,
        ⟨["y"], some [], [4]⟩, { location := ["z"] }], by decide⟩
      4 { location := ["z"] }).value = .ok (shortcutFound.registry, []) := by
    cbv
  exact Discovery.discover_of_advances hentries <| .head (.read _ 0 [] _ _ _ _ rfl rfl hmain) <|
    .head (.read _ 1 [2] _ _ _ _ rfl rfl ha) <|
    .head (.read _ 2 [2] _ _ _ _ rfl rfl hx) <|
    .head (.skip _ 2 [3] _ (by rintro source ⟨⟩; rfl)) <|
    .head (.read _ 3 [] _ _ _ _ rfl rfl hy) <| .single (.read _ 4 [] _ _ _ _ rfl rfl hz)

/-- Three directives lead to the last file, but it is not shown three levels below the first one: the
third file is expanded two levels below, and not once more one level below. -/
theorem shortcut_hidden :
    (discover shortcut .utf8 ["m"]).value = .ok shortcutFound ∧ 0 ∈ shortcutFound.entries ∧
    Reached shortcutFound.registry (fun _ _ => True) 0 3 4 ∧
    4 ∉ (drawn (forest shortcutFound.registry (some 3) [0])).map Tree.file := by
  have hx : Reached shortcutFound.registry (fun _ _ => True) 0 1 2 :=
    .step .start trivial (by decide)
  have hy : Reached shortcutFound.registry (fun _ _ => True) 0 2 3 := .step hx trivial (by decide)
  have hz : Reached shortcutFound.registry (fun _ _ => True) 0 3 4 := .step hy trivial (by decide)
  have hshown : (drawn (forest shortcutFound.registry (some 3) [0])).map Tree.file =
      [0, 1, 2, 3, 2] := by
    cbv
  refine ⟨discover_shortcut, List.mem_cons_self, hz, ?_⟩
  rw [hshown]
  decide

end SourceBundle.Tree
