import SourceBundle.Proofs.Discovery.Entries
import SourceBundle.Proofs.Graph.Dependents

/-! # Dropping unused files

A file is unused if it declares no other file and no other file declares it. What one file needs in
another keeps both, so the files that are kept are closed under needing. A file that no other file
declares can only have been found as an entry.
-/
namespace SourceBundle

variable {r : Registry} {id i j : SourceId}

namespace Registry

/-- No other file is declared by the file, and none declares it. -/
def Isolated (r : Registry) (id : SourceId) : Prop :=
  (∀ j ∈ r.dependencies id, j = id) ∧ ∀ i < r.size, id ∈ r.dependencies i → i = id

instance : DecidablePred r.Isolated := fun id => by unfold Isolated; infer_instance

/-- The order of emission without the files that are not used. -/
def kept (r : Registry) : Order :=
  (Order.dropUnused (Graph.ofRegistry r).order (Graph.ofRegistry r) r).value

theorem Isolated.not_needs (h : r.Isolated id) : ¬r.Needs id j :=
  fun hj => hj.2 (h.1 j hj.1)

theorem Isolated.not_needed (h : r.Isolated id) : ¬r.Needs i id :=
  fun hi => hi.2 (h.2 i (lt_size_of_mem_dependencies hi.1) hi.1).symm

theorem isolated_of_not_needs (h : ∀ j, ¬r.Needs id j) (h' : ∀ i, ¬r.Needs i id) :
    r.Isolated id :=
  ⟨fun j hj => by_contra fun hne => h j ⟨hj, hne⟩,
    fun i _ hi => by_contra fun hne => h' i ⟨hi, Ne.symm hne⟩⟩

theorem isUsed_iff_not_isolated (hid : id < r.size) :
    (Graph.ofRegistry r).isUsed id = true ↔ ¬r.Isolated id := by
  have hlt : id < (Graph.ofRegistry r).size := by rwa [Graph.size_ofRegistry]
  rw [Graph.isUsed_iff (Graph.counted_ofRegistry r) hlt, needs_ofRegistry]
  constructor
  · rintro (⟨j, hj⟩ | ⟨i, -, hi⟩) h
    · exact h.not_needs hj
    · exact h.not_needed hi
  · intro h
    by_contra hn
    obtain ⟨hneeds, hneeded⟩ := not_or.mp hn
    refine h (isolated_of_not_needs (fun j hj => hneeds ⟨j, hj⟩) fun i hi => hneeded ⟨i, ?_, hi⟩)
    rw [Graph.size_ofRegistry]
    exact lt_size_of_mem_dependencies hi.1

theorem kept_eq (r : Registry) :
    r.kept = (Graph.ofRegistry r).order.filter fun id => ¬r.Isolated id := by
  refine List.filter_congr fun id hid => ?_
  rw [Graph.mem_order, Graph.size_ofRegistry] at hid
  rw [Bool.eq_iff_iff, isUsed_iff_not_isolated hid, decide_eq_true_iff]

theorem mem_kept : id ∈ r.kept ↔ id < r.size ∧ ¬r.Isolated id := by
  rw [kept_eq, List.mem_filter, Graph.mem_order, Graph.size_ofRegistry, decide_eq_true_iff]

theorem InRange.lt_size_of_needs (h : r.InRange) (hj : r.Needs i j) : j < r.size := by
  obtain ⟨s, hs, -, hd⟩ := mem_of_mem_dependencies hj.1
  exact h s hs j hd

theorem InRange.mem_kept_of_reaches (h : r.InRange) (hi : i ∈ r.kept)
    (hj : Relation.ReflTransGen r.Needs i j) : j ∈ r.kept := by
  rcases Relation.ReflTransGen.cases_tail hj with rfl | ⟨k, -, hk⟩
  · exact hi
  · exact mem_kept.mpr ⟨h.lt_size_of_needs hk, fun hn => hn.not_needed hk⟩

/-- What is kept stands in the order of emission, so behind all that it needs. -/
theorem InRange.idxOf_kept_lt (h : r.InRange) (hacyclic : ∀ k, ¬Relation.TransGen r.Needs k k)
    (hi : i ∈ r.kept) (hj : Relation.TransGen r.Needs i j) :
    r.kept.idxOf j < r.kept.idxOf i := by
  have hcycle : (Graph.ofRegistry r).cycle? = none :=
    h.cycle?_eq_none_iff.mpr fun ⟨k, hk⟩ => hacyclic k hk
  have hlt : i < (Graph.ofRegistry r).size := by
    rw [Graph.size_ofRegistry]
    exact (mem_kept.mp hi).1
  obtain ⟨before, after, he, hb⟩ := Graph.order_split hcycle hlt (needs_ofRegistry r ▸ hj)
  have hsplit : r.kept = before.filter (¬r.Isolated ·) ++ i :: after.filter (¬r.Isolated ·) := by
    rw [kept_eq, he, List.filter_append, List.filter_cons_of_pos (by simpa using (mem_kept.mp hi).2)]
  have hnodup : r.kept.Nodup := (Graph.nodup_order _).sublist List.filter_sublist
  have hkept := mem_kept.mp (h.mem_kept_of_reaches hi hj.to_reflTransGen)
  have hfront : j ∈ before.filter (¬r.Isolated ·) :=
    List.mem_filter.mpr ⟨hb, by simpa using hkept.2⟩
  rw [hsplit] at hnodup ⊢
  exact Plan.idxOf_lt_idxOf hnodup hfront

end Registry

namespace Discovery

/-- Every record but those of the entries is declared by another file. -/
theorem mem_entries_of_isolated {w : Workspace} {charset : Charset} {entries : List String}
    {d : Discovered} (h : (discover w charset entries).value = .ok d) (hid : id < d.registry.size)
    (hn : d.registry.Isolated id) : id ∈ d.entries := by
  obtain ⟨entry, hentry, hreach⟩ := exists_entry_needs h hid
  rcases Relation.ReflTransGen.cases_tail hreach with rfl | ⟨k, -, hk⟩
  · exact hentry
  · exact absurd hk hn.not_needed

/-- Dropping the unused files takes from the order of emission those files that declare no other
file and that no other file declares, and nothing else. They are all entries. The files that are
kept need no file that is dropped, and each of them stands behind all that it needs if no file
needs itself through others. -/
theorem dropUnused_exact (w : Workspace) (charset : Charset) (entries : List String)
    (d : Discovered) (h : (discover w charset entries).value = .ok d) :
    d.registry.kept =
      (Graph.ofRegistry d.registry).order.filter (fun id => ¬d.registry.Isolated id) ∧
    (Graph.ofRegistry d.registry).order.Perm (List.range d.registry.size) ∧
    (∀ id < d.registry.size, id ∉ d.registry.kept → id ∈ d.entries) ∧
    (∀ i id, id ∈ d.registry.dependencies i → id ≠ i → id ∈ d.registry.kept) ∧
    (∀ i ∈ d.registry.kept, ∀ j, Relation.ReflTransGen d.registry.Needs i j →
      j ∈ d.registry.kept) ∧
    ((∀ k, ¬Relation.TransGen d.registry.Needs k k) → ∀ i ∈ d.registry.kept, ∀ j,
      Relation.TransGen d.registry.Needs i j →
        d.registry.kept.idxOf j < d.registry.kept.idxOf i) := by
  obtain ⟨starts, -, hc⟩ := discover_complete h
  refine ⟨Registry.kept_eq _, ?_, ?_, ?_, ?_, ?_⟩
  · have hperm := Graph.Walk.order_perm (Graph.ofRegistry d.registry)
    rwa [Graph.nodes, Graph.size_ofRegistry] at hperm
  · intro id hid hdropped
    refine mem_entries_of_isolated h hid (by_contra fun hn => hdropped ?_)
    exact Registry.mem_kept.mpr ⟨hid, hn⟩
  · intro i id hdeclared hne
    have hneeds : d.registry.Needs i id := ⟨hdeclared, hne⟩
    exact Registry.mem_kept.mpr ⟨hc.inRange.lt_size_of_needs hneeds, fun hn => hn.not_needed hneeds⟩
  · exact fun i hi j hj => hc.inRange.mem_kept_of_reaches hi hj
  · exact fun hacyclic i hi j hj => hc.inRange.idxOf_kept_lt hacyclic hi hj

/-! ## An entry that only names itself -/

/-- The first entry names itself, the second one names another file twice. -/
def loner : Workspace where
  current := []
  files := ⟨[
    (["a"], .file (Text.Utf8.encode "/*requires a*/x".toList)),
    (["b"], .file (Text.Utf8.encode "/*requires c*//*requires c*/y".toList)),
    (["c"], .file (Text.Utf8.encode "z".toList))]⟩

def lonerFound : Discovered :=
  ⟨⟨[⟨["a"], some ['x'], [0]⟩, ⟨["b"], some ['y'], [2, 2]⟩, ⟨["c"], some ['z'], []⟩], by decide⟩,
    [0, 1]⟩

theorem discover_loner : (discover loner .utf8 ["a", "b"]).value = .ok lonerFound := by
  have hentries : enterAll loner .empty ["a", "b"] =
      .ok (⟨[{ location := ["a"] }, { location := ["b"] }], by decide⟩, [0, 1]) := by
    cbv
  have ha : (visit loner .utf8 ⟨[{ location := ["a"] }, { location := ["b"] }], by decide⟩
      0 { location := ["a"] }).value =
        .ok (⟨[⟨["a"], some ['x'], [0]⟩, { location := ["b"] }], by decide⟩, [0]) := by
    cbv
  have hb : (visit loner .utf8 ⟨[⟨["a"], some ['x'], [0]⟩, { location := ["b"] }], by decide⟩
      1 { location := ["b"] }).value =
        .ok (⟨[⟨["a"], some ['x'], [0]⟩, ⟨["b"], some ['y'], [2, 2]⟩, { location := ["c"] }],
          by decide⟩, [2, 2]) := by
    cbv
  have hc : (visit loner .utf8
      ⟨[⟨["a"], some ['x'], [0]⟩, ⟨["b"], some ['y'], [2, 2]⟩, { location := ["c"] }], by decide⟩
      2 { location := ["c"] }).value = .ok (lonerFound.registry, []) := by
    cbv
  have hskip : ∀ source, lonerFound.registry.source? 2 = some source → source.isRead = true := by
    rintro source ⟨⟩
    rfl
  exact discover_of_advances hentries <| .head (.read _ 0 [1] _ _ _ _ rfl rfl ha) <|
    .head (.read _ 1 [0] _ _ _ _ rfl rfl hb) <|
    .head (.skip _ 0 [2, 2] _ (by rintro source ⟨⟩; rfl)) <|
    .head (.read _ 2 [2] _ _ _ _ rfl rfl hc) <| .single (.skip _ 2 [] _ hskip)

/-- The file that only names itself is dropped; the one that is named by another stays in front of
it. -/
theorem loner_dropped : (discover loner .utf8 ["a", "b"]).value = .ok lonerFound ∧
    lonerFound.registry.kept = [2, 1] ∧ 0 ∈ lonerFound.entries ∧
    (2 ∈ lonerFound.registry.dependencies 1 ∧ 2 ∈ lonerFound.registry.kept) ∧
    (∀ j, Relation.ReflTransGen lonerFound.registry.Needs 1 j → j ∈ lonerFound.registry.kept) ∧
    lonerFound.registry.kept.idxOf 2 < lonerFound.registry.kept.idxOf 1 := by
  obtain ⟨hkept, -, hentry, hfound, hclosed, hfirst⟩ :=
    dropUnused_exact loner .utf8 ["a", "b"] lonerFound discover_loner
  have horder : (Graph.ofRegistry lonerFound.registry).order = [0, 2, 1] := by cbv
  have hlist : lonerFound.registry.kept = [2, 1] := by
    rw [hkept, horder]
    decide
  have hneeds : lonerFound.registry.Needs 1 2 := by decide
  have hacyclic : ∀ k, ¬Relation.TransGen lonerFound.registry.Needs k k := by
    have hr : lonerFound.registry.InRange := by decide
    have hcycle : (Graph.ofRegistry lonerFound.registry).cycle? = none := by cbv
    exact fun k hk => hr.cycle?_eq_none_iff.mp hcycle ⟨k, hk⟩
  have hone : 1 ∈ lonerFound.registry.kept := by
    rw [hlist]
    decide
  refine ⟨discover_loner, hlist, hentry 0 (by decide) ?_, ⟨hneeds.1, hfound 1 2 hneeds.1 hneeds.2⟩,
    hclosed 1 hone, hfirst hacyclic 1 hone 2 (.single hneeds)⟩
  rw [hlist]
  decide

end Discovery

end SourceBundle
