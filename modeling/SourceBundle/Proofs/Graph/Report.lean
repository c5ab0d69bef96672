import SourceBundle.Proofs.Graph.Cycle

/-! # The cycle that is reported

A report names two or more files, each once and in the order in which they need each other, and
then the first of them again. A file that only leads to the cycle is not named: the path is cut
where the cycle starts, and that place is always found.
-/
namespace SourceBundle

namespace Graph.Walk

variable {g : Graph} {s t : Walk} {node : SourceId}

theorem runs_tracked (h : Relation.ReflTransGen (Move g) s t) (hs : Tracked g s) :
    Tracked g t := by
  induction h with
  | refl => exact hs
  | tail _ hm ih => exact hm.tracked ih

/-- At no moment of a walk does an edge lead back to a node that is missing from the path. -/
theorem position?_isSome (hg : g.Closed) (h : Relation.ReflTransGen (Move g) (begin g) s)
    (hc : s.closing? = some node) : (s.position? node).isSome = true := by
  have hs := runs_tracked h (tracked_begin g)
  obtain ⟨before, rest, -, hposition, -⟩ := exists_loop (hs.mem_nodes hg hc)
  rw [hposition, Option.isSome_some]

end Graph.Walk

namespace Registry

variable {r : Registry} {e : Error}

theorem graph_eq_error_iff : r.graph = .error e ↔
    ∃ members, (Graph.ofRegistry r).cycle? = some members ∧ r.cycleError members = e := by
  unfold graph
  cases (Graph.ofRegistry r).cycle? <;> simp

theorem graph_isCycle_iff (h : r.InRange) :
    (∃ cycle, r.graph = .error (.cycleDetected cycle)) ↔ ∃ i, Relation.TransGen r.Needs i i := by
  rw [← not_iff_not, ← h.cycle?_eq_none_iff]
  unfold graph
  cases (Graph.ofRegistry r).cycle? <;> simp [cycleError]

/-- What is reported is a cycle that meets each of its files once, from its first file back to
that file, and the place of this file on the path is known whenever an edge leads back to it. -/
theorem graph_reports_cycle (r : Registry) (h : r.InRange) :
    (∀ e, r.graph = .error e → ∃ files, r.Cycle files ∧ files.Nodup ∧ e = .cycleDetected
      (String.intercalate " -> " ((files ++ files.head?.toList).map r.path))) ∧
    ∀ s node, Relation.ReflTransGen (Graph.Walk.Move (Graph.ofRegistry r))
        (Graph.Walk.begin (Graph.ofRegistry r)) s →
      s.closing? = some node → (s.position? node).isSome = true := by
  refine ⟨fun e he => ?_, fun s node hs hc => Graph.Walk.position?_isSome h.closed hs hc⟩
  obtain ⟨members, hmembers, rfl⟩ := graph_eq_error_iff.mp he
  obtain ⟨files, hcycle, hnodup, rfl⟩ := cycle_of_cycle? h hmembers
  exact ⟨files, hcycle, hnodup, rfl⟩

/-- The walk over the ring when an edge first leads back: from the last file to the third. -/
def ringClosing : Graph.Walk := ⟨[], [⟨2, [3]⟩, ⟨1, []⟩, ⟨3, []⟩, ⟨0, [1]⟩], []⟩

/-- The search enters the ring at its third file; the file above the ring is not named. -/
theorem ring_reported : ring.InRange ∧ ring.graph = .error (.cycleDetected "/c -> /a -> /b -> /c") ∧
    (∃ files, ring.Cycle files ∧ files.Nodup ∧ Error.cycleDetected "/c -> /a -> /b -> /c" =
      .cycleDetected (String.intercalate " -> " ((files ++ files.head?.toList).map ring.path))) ∧
    ringClosing.closing? = some 3 ∧ (ringClosing.position? 3).isSome = true := by
  have hr : ring.InRange := by decide
  have hc : ringClosing.closing? = some 3 := by decide
  have hcycle : (Graph.ofRegistry ring).cycle? = some [3, 1, 2, 3] := by
    refine ((Graph.Walk.step_eq_some_iff.mp rfl).findCycle_eq rfl).trans ?_
    refine ((Graph.Walk.step_eq_some_iff.mp rfl).findCycle_eq rfl).trans ?_
    refine ((Graph.Walk.step_eq_some_iff.mp rfl).findCycle_eq rfl).trans ?_
    refine ((Graph.Walk.step_eq_some_iff.mp rfl).findCycle_eq rfl).trans ?_
    exact Graph.Walk.findCycle_of_closing hc
  have hg : ring.graph = .error (.cycleDetected "/c -> /a -> /b -> /c") :=
    graph_eq_error_iff.mpr ⟨_, hcycle, by decide⟩
  have hruns : Relation.ReflTransGen (Graph.Walk.Move (Graph.ofRegistry ring))
      (Graph.Walk.begin (Graph.ofRegistry ring)) ringClosing :=
    .head (Graph.Walk.step_eq_some_iff.mp rfl) <| .head (Graph.Walk.step_eq_some_iff.mp rfl) <|
      .head (Graph.Walk.step_eq_some_iff.mp rfl) <| .single (Graph.Walk.step_eq_some_iff.mp rfl)
  obtain ⟨hreport, hplace⟩ := graph_reports_cycle ring hr
  exact ⟨hr, hg, hreport _ hg, hc, hplace _ 3 hruns hc⟩

end Registry

end SourceBundle
