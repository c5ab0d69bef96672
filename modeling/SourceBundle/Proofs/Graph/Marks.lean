import SourceBundle.Proofs.Graph.Building

/-! # Walking with a table of marks

A walk may keep a mark for each node in a table, and on its path the number of edges that it has
tried at each node. Here every look into a table is checked, and a walk that looks behind the end of
one has no outcome. Where all edges lead to nodes that never happens: such a walk shows, step by
step, the walk that knows its nodes by the lists they are in.
-/
namespace SourceBundle.Graph

inductive Mark where
  | new
  | onPath
  | done
deriving DecidableEq, Repr

structure Tabled where
  marks : List Mark
  /-- The nodes that have not been tried as the start of a path. -/
  roots : List SourceId
  /-- The nodes of the path, the latest first, with the number of edges tried at each. -/
  path : List (SourceId × Nat) := []
  /-- The nodes left, the latest first. -/
  left : List SourceId := []
deriving DecidableEq, Repr

namespace Tabled

inductive Turn where
  | finished
  | on (s : Tabled)
  /-- An edge leads back to a node of the path; the walk may go on behind it. -/
  | back (node : SourceId) (s : Tabled)
deriving DecidableEq, Repr

def begin (g : Graph) : Tabled := { marks := List.replicate g.size .new, roots := g.nodes }

/-- The next move; it has no outcome if a node is missing from a table. -/
def step? (g : Graph) (s : Tabled) : Option Turn :=
  match s.path with
  | [] =>
    match s.roots with
    | [] => some .finished
    | root :: roots => do
      if (← s.marks[root]?) = .new then
        let marks ← modify? s.marks root fun _ => .onPath
        return .on { s with marks, roots, path := [(root, 0)] }
      return .on { s with roots }
  | (node, tried) :: path => do
    let row ← g.edges[node]?
    match row[tried]? with
    | none =>
      let marks ← modify? s.marks node fun _ => .done
      return .on { s with marks, path, left := node :: s.left }
    | some next =>
      let behind : Tabled := { s with path := (node, tried + 1) :: path }
      match ← s.marks[next]? with
      | .new =>
        let marks ← modify? s.marks next fun _ => .onPath
        return .on { behind with marks, path := (next, 0) :: behind.path }
      | .onPath => return .back next behind
      | .done => return .on behind

/-! ## Whole walks -/

def Turn.next? : Turn → Option Tabled
  | .finished => none
  | .on s => some s
  | .back _ s => some s

/-- What may still be tried: roots, and edges of the nodes on the path. -/
def load (g : Graph) (s : Tabled) : Nat :=
  s.path.foldr (fun f n => (g.dependencies f.1).length - f.2 + 1 + n) s.roots.length

variable {g : Graph} {s t : Tabled} {turn : Turn} {i : SourceId}

theorem count_new_modify (marks : List Mark) (i : SourceId) {m : Mark} (hm : m ≠ .new) :
    (marks.modify i fun _ => m).count .new =
      marks.count .new - if marks[i]? = some .new then 1 else 0 := by
  rw [← List.set_eq_modify]
  by_cases hi : i < marks.length
  · rw [List.count_set hi, beq_eq_false_iff_ne.mpr hm, List.getElem?_eq_getElem hi]
    simp
  · rw [List.set_eq_of_length_le (Nat.le_of_not_lt hi), List.getElem?_eq_none (Nat.le_of_not_lt hi)]
    simp

theorem count_new_modify_lt {marks : List Mark} {m : Mark} (hi : marks[i]? = some .new)
    (hm : m ≠ .new) : (marks.modify i fun _ => m).count .new < marks.count .new := by
  have hpos : 0 < marks.count .new := List.count_pos_iff.mpr (List.mem_of_getElem? hi)
  rw [count_new_modify marks i hm, if_pos hi]
  exact Nat.sub_lt hpos Nat.one_pos

theorem eq_modify_of_modify? {α : Type} {entries changed : List α} {f : α → α}
    (h : modify? entries i f = some changed) : changed = entries.modify i f := by
  unfold modify? at h
  split at h
  · exact (Option.some.inj h).symm
  · cases h

theorem lex_of_le {a b c d : Nat} (hab : a ≤ b) (hcd : c < d) :
    Prod.Lex (· < ·) (· < ·) (a, c) (b, d) := by
  rw [Prod.lex_def]
  rcases Nat.lt_or_eq_of_le hab with h | h
  · exact Or.inl h
  · exact Or.inr ⟨h, hcd⟩

/-- With every move there are fewer new nodes, or fewer roots and edges to be tried. -/
theorem step?_shrinks (h : step? g s = some turn) (ht : turn.next? = some t) :
    Prod.Lex (· < ·) (· < ·) (t.marks.count .new, t.load g) (s.marks.count .new, s.load g) := by
  obtain ⟨marks, roots, path, left⟩ := s
  match path, roots with
  | [], [] =>
    cases h
    cases ht
  | [], root :: roots =>
    simp only [step?, Option.bind_eq_bind, Option.bind_eq_some_iff] at h
    obtain ⟨mark, hmark, h⟩ := h
    split at h
    · rename_i hnew
      obtain ⟨changed, hc, h⟩ := Option.bind_eq_some_iff.mp h
      cases h
      cases ht
      obtain rfl := eq_modify_of_modify? hc
      exact Prod.Lex.left _ _ (count_new_modify_lt (hnew ▸ hmark) (by decide))
    · cases h
      cases ht
      exact Prod.Lex.right _ (by simp [load])
  | (node, tried) :: path, roots =>
    simp only [step?, Option.bind_eq_bind, Option.bind_eq_some_iff] at h
    obtain ⟨row, hrow, h⟩ := h
    obtain rfl : g.dependencies node = row := by rw [dependencies, hrow, Option.getD_some]
    split at h
    · obtain ⟨changed, hc, h⟩ := Option.bind_eq_some_iff.mp h
      cases h
      cases ht
      obtain rfl := eq_modify_of_modify? hc
      have hle := (count_new_modify marks node (m := .done) (by decide)).trans_le (Nat.sub_le _ _)
      exact lex_of_le hle (by simp [load])
    · rename_i next hnext
      have hlt := (List.getElem?_eq_some_iff.mp hnext).1
      obtain ⟨mark, hmark, h⟩ := Option.bind_eq_some_iff.mp h
      cases mark with
      | new =>
        obtain ⟨changed, hc, h⟩ := Option.bind_eq_some_iff.mp h
        cases h
        cases ht
        obtain rfl := eq_modify_of_modify? hc
        exact Prod.Lex.left _ _ (count_new_modify_lt hmark (by decide))
      | onPath =>
        cases h
        cases ht
        exact Prod.Lex.right _ (by simp [load]; omega)
      | done =>
        cases h
        cases ht
        exact Prod.Lex.right _ (by simp [load]; omega)

/-- The nodes in the order in which they are left. -/
def finish? (g : Graph) (s : Tabled) : Option (List SourceId) :=
  match _h : step? g s with
  | none => none
  | some .finished => some s.left.reverse
  | some (.on t) => finish? g t
  | some (.back _ t) => finish? g t
termination_by (s.marks.count .new, s.load g)
decreasing_by
  · exact step?_shrinks _h rfl
  · exact step?_shrinks _h rfl

/-- The entries from a place on; the place may be the end, but not lie behind it. -/
def from? {α : Type} (entries : List α) (start : Nat) : Option (List α) :=
  if start ≤ entries.length then some (entries.drop start) else none

def nodes (s : Tabled) : List SourceId := s.path.map Prod.fst

/-- The path from a node on, and back to the node. -/
def loop? (s : Tabled) (node : SourceId) : Option (List SourceId) := do
  let nodes := s.nodes.reverse
  let rest ← from? nodes ((nodes.findIdx? (· = node)).getD 0)
  return rest ++ [node]

/-- The search for a cycle stops where an edge first leads back. -/
def search? (g : Graph) (s : Tabled) : Option (Option (List SourceId)) :=
  match _h : step? g s with
  | none => none
  | some .finished => some none
  | some (.on t) => search? g t
  | some (.back node t) => (t.loop? node).map some
termination_by (s.marks.count .new, s.load g)
decreasing_by exact step?_shrinks _h rfl

end Tabled

/-- The order of emission asks only whether a node is new. -/
def order? (g : Graph) : Option (List SourceId) := (Tabled.begin g).finish? g

def search? (g : Graph) : Option (Option (List SourceId)) := (Tabled.begin g).search? g

/-! ## The walk that is shown -/

theorem Walk.findCycle_of_step_eq_none {g : Graph} {t : Walk} (h : t.step g = none) :
    t.findCycle g = none := by
  have hc : t.closing? = none := by rw [Walk.closing?, (step_eq_none h).2]
  rw [findCycle, hc]
  simp only
  split
  · rfl
  · rename_i u hu
    cases h.symm.trans hu

namespace Tabled

variable {g : Graph} {s : Tabled} {t : Walk} {turn : Turn} {fresh fresh' left left' : List SourceId}
  {i : SourceId} {m : Mark}

def mark (fresh left : List SourceId) (i : SourceId) : Mark :=
  if i ∈ fresh then .new else if i ∈ left then .done else .onPath

/-- The table for the nodes not met yet and those left; all others are on the path. -/
def table (g : Graph) (fresh left : List SourceId) : List Mark := g.nodes.map (mark fresh left)

theorem mark_eq_new_iff : mark fresh left i = .new ↔ i ∈ fresh := by
  unfold mark
  split_ifs <;> simp_all

theorem mark_eq_done (hf : i ∉ fresh) (hl : i ∈ left) : mark fresh left i = .done := by
  rw [mark, if_neg hf, if_pos hl]

theorem mark_eq_onPath (h : i ∉ fresh ∧ i ∉ left) : mark fresh left i = .onPath := by
  rw [mark, if_neg h.1, if_neg h.2]

theorem length_table (g : Graph) (fresh left : List SourceId) :
    (table g fresh left).length = g.size := by
  simp [table, Graph.nodes]

theorem getElem?_table (hi : i < g.size) : (table g fresh left)[i]? = some (mark fresh left i) := by
  simp [table, Graph.nodes, hi]

theorem modify?_table (hi : i < g.size) (hm : mark fresh' left' i = m)
    (hother : ∀ j, j ≠ i → mark fresh' left' j = mark fresh left j) :
    modify? (table g fresh left) i (fun _ => m) = some (table g fresh' left') := by
  rw [modify?_of_lt (by rwa [length_table])]
  congr 1
  apply List.ext_getElem
  · rw [List.length_modify, length_table, length_table]
  · intro j _ _
    rw [List.getElem_modify]
    by_cases he : i = j
    · subst he
      simp [table, Graph.nodes, hm]
    · simp [table, Graph.nodes, he, hother j (Ne.symm he)]

theorem modify?_enter (hi : i < g.size) (h : i ∉ fresh' ∧ i ∉ left)
    (hother : ∀ j, j ≠ i → (j ∈ fresh' ↔ j ∈ fresh)) :
    modify? (table g fresh left) i (fun _ => .onPath) = some (table g fresh' left) :=
  modify?_table hi (mark_eq_onPath h) fun j hj => by simp only [mark, hother j hj]

theorem modify?_leave (hi : i < g.size) (hf : i ∉ fresh) :
    modify? (table g fresh left) i (fun _ => .done) = some (table g fresh (i :: left)) :=
  modify?_table hi (mark_eq_done hf List.mem_cons_self) fun j hj => by simp [mark, hj]

/-- The edges of a node that have not been tried are waiting. -/
def frame (g : Graph) (f : SourceId × Nat) : Frame := ⟨f.1, (g.dependencies f.1).drop f.2⟩

/-- The table says of each node where it is in the walk, and the path is the same. -/
structure Shows (g : Graph) (s : Tabled) (t : Walk) : Prop where
  marks : s.marks = table g t.fresh t.left
  roots : s.roots.Sublist g.nodes
  fresh : t.fresh.Sublist s.roots
  path : t.path = s.path.map (frame g)
  left : s.left = t.left

theorem shows_begin (g : Graph) : Shows g (begin g) (Walk.begin g) := by
  have hnew : ∀ i ∈ g.nodes, mark g.nodes [] i = .new := fun i hi => mark_eq_new_iff.mpr hi
  have htable : table g g.nodes [] = List.replicate g.size .new := by
    rw [table, List.map_congr_left hnew, List.map_const', Graph.nodes, List.length_range]
  exact ⟨htable.symm, List.Sublist.refl _, List.Sublist.refl _, rfl, rfl⟩

/-- What a turn of the table means for the walk. -/
inductive Agrees (g : Graph) (t : Walk) : Turn → Prop
  | finished (h : Walk.step g t = none) : Agrees g t .finished
  /-- A node met before is no start of a path: the walk itself does not move. -/
  | skip (s : Tabled) (h : Shows g s t) : Agrees g t (.on s)
  | on (s : Tabled) (u : Walk) (hm : Walk.Move g t u) (hc : t.closing? = none)
      (h : Shows g s u) : Agrees g t (.on s)
  | back (node : SourceId) (s : Tabled) (u : Walk) (hm : Walk.Move g t u)
      (hc : t.closing? = some node) (hn : s.nodes = t.nodes) (h : Shows g s u) :
      Agrees g t (.back node s)

section Turns

variable {roots : List SourceId} {path : List (SourceId × Nat)} {node next tried : Nat}

theorem agrees_root {root : SourceId} (hroots : (root :: roots).Sublist g.nodes)
    (hfresh : fresh.Sublist (root :: roots)) (ht : Walk.Tracked g ⟨fresh, [], left⟩) :
    ∃ turn, step? g ⟨table g fresh left, root :: roots, [], left⟩ = some turn ∧
      Agrees g ⟨fresh, [], left⟩ turn := by
  have hlt : root < g.size := List.mem_range.mp (hroots.subset List.mem_cons_self)
  have hrest := (List.sublist_cons_self root roots).trans hroots
  have hnot : root ∉ roots := (List.nodup_cons.mp (hroots.nodup List.nodup_range)).1
  simp only [step?, getElem?_table hlt, Option.bind_eq_bind, Option.bind_some]
  rcases List.sublist_cons_iff.mp hfresh with hf | ⟨rest, rfl, hf⟩
  · have hold : root ∉ fresh := fun hm => hnot (hf.subset hm)
    rw [if_neg (mark_eq_new_iff.not.mpr hold)]
    exact ⟨_, rfl, .skip _ ⟨rfl, hrest, hf, rfl, rfl⟩⟩
  · have hm := Walk.Move.start (g := g) root rest left
    have hchange : modify? (table g (root :: rest) left) root (fun _ => .onPath) =
        some (table g rest left) :=
      modify?_enter hlt (((hm.parted ht.parted).mem_nodes_iff hlt).mp List.mem_cons_self)
        fun j hj => by simp [hj]
    rw [if_pos (mark_eq_new_iff.mpr List.mem_cons_self), hchange]
    exact ⟨_, rfl, .on _ _ hm rfl ⟨rfl, hrest, hf, rfl, rfl⟩⟩

theorem agrees_leave (hroots : roots.Sublist g.nodes) (hfresh : fresh.Sublist roots)
    (hn : (g.dependencies node)[tried]? = none)
    (ht : Walk.Tracked g ⟨fresh, ⟨node, []⟩ :: path.map (frame g), left⟩) :
    ∃ turn, step? g ⟨table g fresh left, roots, (node, tried) :: path, left⟩ = some turn ∧
      Agrees g ⟨fresh, ⟨node, []⟩ :: path.map (frame g), left⟩ turn := by
  have hlt : node < g.size := ht.parted.mem_iff.mp (Or.inr (Or.inl List.mem_cons_self))
  have hchange : modify? (table g fresh left) node (fun _ => .done) =
      some (table g fresh (node :: left)) :=
    modify?_leave hlt ((ht.parted.mem_nodes_iff hlt).mp List.mem_cons_self).1
  simp only [step?, getElem?_edges hlt, hn, hchange, Option.bind_eq_bind, Option.bind_some]
  exact ⟨_, rfl, .on _ _ (.leave fresh node (path.map (frame g)) left) rfl
    ⟨rfl, hroots, hfresh, rfl, rfl⟩⟩

theorem agrees_edge (hg : g.Closed) (hroots : roots.Sublist g.nodes)
    (hfresh : fresh.Sublist roots) (hn : (g.dependencies node)[tried]? = some next)
    {waiting : List SourceId} (hw : (g.dependencies node).drop (tried + 1) = waiting)
    (ht : Walk.Tracked g ⟨fresh, ⟨node, next :: waiting⟩ :: path.map (frame g), left⟩) :
    ∃ turn, step? g ⟨table g fresh left, roots, (node, tried) :: path, left⟩ = some turn ∧
      Agrees g ⟨fresh, ⟨node, next :: waiting⟩ :: path.map (frame g), left⟩ turn := by
  have hlt : node < g.size := ht.parted.mem_iff.mp (Or.inr (Or.inl List.mem_cons_self))
  have hlt' : next < g.size := hg node next (List.mem_of_getElem? hn)
  simp only [step?, getElem?_edges hlt, hn, getElem?_table hlt', Option.bind_eq_bind,
    Option.bind_some]
  by_cases hf : next ∈ fresh
  · have hm := Walk.Move.descend (g := g) fresh node next waiting (path.map (frame g)) left hf
    have hchange : modify? (table g fresh left) next (fun _ => .onPath) =
        some (table g (fresh.erase next) left) :=
      modify?_enter hlt' (((hm.parted ht.parted).mem_nodes_iff hlt').mp List.mem_cons_self)
        fun j hj => List.mem_erase_of_ne hj
    rw [mark_eq_new_iff.mpr hf]
    simp only [hchange, Option.bind_some]
    refine ⟨_, rfl, .on _ _ hm ?_ ⟨rfl, hroots, List.erase_sublist.trans hfresh, ?_, rfl⟩⟩
    · simp [Walk.closing?, hf]
    · simp [frame, hw]
  · have hm := Walk.Move.pass (g := g) fresh node next waiting (path.map (frame g)) left hf
    have hpath : ⟨node, waiting⟩ :: path.map (frame g) =
        ((node, tried + 1) :: path).map (frame g) := by simp [frame, hw]
    by_cases hl : next ∈ left
    · rw [mark_eq_done hf hl]
      refine ⟨_, rfl, .on _ _ hm ?_ ⟨rfl, hroots, hfresh, hpath, rfl⟩⟩
      simp [Walk.closing?, hl]
    · rw [mark_eq_onPath ⟨hf, hl⟩]
      refine ⟨_, rfl, .back next _ _ hm ?_ ?_ ⟨rfl, hroots, hfresh, hpath, rfl⟩⟩
      · simp [Walk.closing?, hf, hl]
      · simp [nodes, Walk.nodes, frame, Function.comp_def]

end Turns

/-- Every move of a walk can be made in the tables. -/
theorem Shows.agrees (h : Shows g s t) (ht : Walk.Tracked g t) (hg : g.Closed) :
    ∃ turn, step? g s = some turn ∧ Agrees g t turn := by
  obtain ⟨marks, roots, path, left⟩ := s
  obtain ⟨fresh, frames, left'⟩ := t
  obtain ⟨hmarks, hroots, hfresh, hpath, hleft⟩ := h
  dsimp only at hmarks hroots hfresh hpath hleft
  subst hpath hleft hmarks
  match path, roots with
  | [], [] =>
    obtain rfl := List.eq_nil_of_sublist_nil hfresh
    exact ⟨.finished, rfl, .finished rfl⟩
  | [], root :: roots => exact agrees_root hroots hfresh ht
  | (node, tried) :: path, roots =>
    simp only [List.map_cons, frame] at ht ⊢
    cases hn : (g.dependencies node)[tried]? with
    | none =>
      rw [List.drop_eq_nil_of_le (List.getElem?_eq_none_iff.mp hn)] at ht ⊢
      exact agrees_leave hroots hfresh hn ht
    | some next =>
      obtain ⟨htried, hnext⟩ := List.getElem?_eq_some_iff.mp hn
      rw [List.drop_eq_getElem_cons htried, hnext] at ht ⊢
      exact agrees_edge hg hroots hfresh hn rfl ht

/-- The path is cut at its end or before it, so this slice is always there. -/
theorem loop?_eq (hn : s.nodes = t.nodes) (node : SourceId) :
    s.loop? node = some (t.loop node) := by
  have hle : (t.position? node).getD 0 ≤ t.nodes.reverse.length := by
    cases hp : t.position? node with
    | none => exact Nat.zero_le _
    | some start => exact (List.findIdx?_eq_some_iff_getElem.mp hp).1.le
  rw [Walk.position?, ← hn] at hle
  rw [loop?, from?, if_pos hle, Walk.loop, Walk.position?, ← hn]
  rfl

theorem finish?_eq_match (g : Graph) (s : Tabled) : finish? g s = match step? g s with
    | none => none
    | some .finished => some s.left.reverse
    | some (.on t) => finish? g t
    | some (.back _ t) => finish? g t := by
  rw [finish?]
  split <;> rename_i h <;> rw [h]

theorem search?_eq_match (g : Graph) (s : Tabled) : search? g s = match step? g s with
    | none => none
    | some .finished => some none
    | some (.on t) => search? g t
    | some (.back node t) => (t.loop? node).map some := by
  rw [search?]
  split <;> rename_i h <;> rw [h]

/-- To prove something of a walk and the tables that show it, it is enough to prove it of walks that
have come to their end, and to pass it back along a turn. -/
theorem Shows.induction {P : Tabled → Walk → Prop} (hg : g.Closed)
    (finished : ∀ s t, Shows g s t → step? g s = some .finished → Walk.step g t = none → P s t)
    (skip : ∀ s t s', step? g s = some (.on s') → P s' t → P s t)
    (on : ∀ s t s' t', step? g s = some (.on s') → Walk.Move g t t' → t.closing? = none →
      P s' t' → P s t)
    (back : ∀ s t s' t' node, step? g s = some (.back node s') → Walk.Move g t t' →
      t.closing? = some node → s'.nodes = t.nodes → P s' t' → P s t)
    (h : Shows g s t) (ht : Walk.Tracked g t) : P s t := by
  obtain ⟨turn, hturn, ha⟩ := h.agrees ht hg
  induction s using finish?.induct g generalizing t turn with
  | case1 s hnone => cases hnone.symm.trans hturn
  | case2 s hfinished =>
    cases hfinished.symm.trans hturn
    obtain ⟨hw⟩ := ha
    exact finished s t h hfinished hw
  | case3 s s' hon ih =>
    cases hon.symm.trans hturn
    cases ha with
    | skip _ h' =>
      obtain ⟨turn', hturn', ha'⟩ := h'.agrees ht hg
      exact skip s t s' hon (ih h' ht turn' hturn' ha')
    | on _ u hm hc h' =>
      obtain ⟨turn', hturn', ha'⟩ := h'.agrees (hm.tracked ht) hg
      exact on s t s' u hon hm hc (ih h' (hm.tracked ht) turn' hturn' ha')
  | case4 s node s' hback ih =>
    cases hback.symm.trans hturn
    cases ha with
    | back _ _ u hm hc hn h' =>
      obtain ⟨turn', hturn', ha'⟩ := h'.agrees (hm.tracked ht) hg
      exact back s t s' u node hback hm hc hn (ih h' (hm.tracked ht) turn' hturn' ha')

theorem Shows.finish?_eq (h : Shows g s t) (ht : Walk.Tracked g t) (hg : g.Closed) :
    finish? g s = some (t.finish g) := by
  refine h.induction hg (P := fun s t => finish? g s = some (t.finish g)) ?_ ?_ ?_ ?_ ht
  · intro s t h hturn hw
    rw [finish?_eq_match, hturn, Walk.finish_eq_of_step_eq_none hw, h.left]
  · intro s t s' hturn ih
    rw [finish?_eq_match, hturn]
    exact ih
  · intro s t s' t' hturn hm _ ih
    rw [finish?_eq_match, hturn, hm.finish_eq]
    exact ih
  · intro s t s' t' node hturn hm _ _ ih
    rw [finish?_eq_match, hturn, hm.finish_eq]
    exact ih

theorem Shows.search?_eq (h : Shows g s t) (ht : Walk.Tracked g t) (hg : g.Closed) :
    search? g s = some (t.findCycle g) := by
  refine h.induction hg (P := fun s t => search? g s = some (t.findCycle g)) ?_ ?_ ?_ ?_ ht
  · intro s t h hturn hw
    rw [search?_eq_match, hturn, Walk.findCycle_of_step_eq_none hw]
  · intro s t s' hturn ih
    rw [search?_eq_match, hturn]
    exact ih
  · intro s t s' t' hturn hm hc ih
    rw [search?_eq_match, hturn, hm.findCycle_eq hc]
    exact ih
  · intro s t s' t' node hturn _ hc hn _
    rw [search?_eq_match, hturn, Walk.findCycle_of_closing hc]
    simp only [loop?_eq hn, Option.map_some]

end Tabled

theorem order?_eq {g : Graph} (h : g.Closed) : g.order? = some g.order :=
  (Tabled.shows_begin g).finish?_eq (Walk.tracked_begin g) h

theorem search?_eq {g : Graph} (h : g.Closed) : g.search? = some g.cycle? :=
  (Tabled.shows_begin g).search?_eq (Walk.tracked_begin g) h

end SourceBundle.Graph
