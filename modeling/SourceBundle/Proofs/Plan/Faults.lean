import SourceBundle.Proofs.Discovery.Faults
import SourceBundle.Proofs.Plan.Order

/-! # What a failed run reports

An entry that leads nowhere comes before everything else, then the first fault in breadth-first
order, and a cycle comes last. Entries that are no files are left out of a lenient plan, which is
why it never fails for a file that cannot be read.
-/
namespace SourceBundle.Plan

variable {w : Workspace} {o : Options} {entries : List String} {e : Error}

theorem plan_eq_error (h : (plan w o entries).value = .error e) :
    (discover w o.charset entries).value = .error e ∨ ∃ cycle, e = .cycleDetected cycle := by
  cases hd : (discover w o.charset entries).value with
  | error e' =>
    rw [plan_of_discover_error hd] at h
    exact Or.inl (congrArg Except.error (Except.error.inj h))
  | ok d =>
    rw [plan_of_discover_ok hd, arrange_eq] at h
    split at h
    · rename_i members hc
      cases h
      exact Or.inr ⟨_, rfl⟩
    · cases h

theorem planPaths_eq_error (h : (planPaths w o entries).value = .error e) :
    (∃ path declaredIn, e = .missingDependency path declaredIn) ∨
      (∃ file directive, e = .malformedDirective file directive) ∨
      ∃ cycle, e = .cycleDetected cycle := by
  have hfiles : ∀ entry ∈ entries.filter (w.isFile ·), w.isFile entry = true :=
    fun entry he => (List.mem_filter.mp he).2
  rcases plan_eq_error h with hd | hcycle
  · rcases Discovery.not_read_of_isFile hfiles hd with hmissing | hmalformed
    · exact Or.inl hmissing
    · exact Or.inr (Or.inl hmalformed)
  · exact Or.inr (Or.inr hcycle)

/-- Discovery fails if and only if an entry leads nowhere or a file is faulty that is found through
references that name files. The first entry that leads nowhere is reported with nothing read. Without
such an entry the fault of the first faulty file is, in the order of the numbers that every run gives
to the files that are found. A lenient plan fails for a missing dependency, an open directive or a
cycle only. -/
theorem faults_reported (w : Workspace) (o : Options) (entries : List String) :
    ((∃ e, (discover w o.charset entries).value = .error e) ↔
      (∃ entry ∈ entries, ∃ fault, w.canonical entry = .error fault) ∨
        ∃ l e, w.Finds o.charset entries l ∧ w.Faulty o.charset l e) ∧
    (∀ before entry after fault, entries = before ++ entry :: after →
      (∀ x ∈ before, ∃ l, w.canonical x = .ok l) → w.canonical entry = .error fault →
      discover w o.charset entries = ⟨.error (.read entry fault), []⟩) ∧
    (∀ starts : List Location, entries.map w.canonical = starts.map .ok →
      (∀ e, (discover w o.charset entries).value = .error e ↔
        w.FirstFault o.charset starts e) ∧
      (∀ l, w.Finds o.charset entries l ↔ ∃ n, w.nth? o.charset starts n = some l) ∧
      ∀ s, Relation.ReflTransGen (Discovery.Advance w o.charset)
          ⟨(Registry.empty.enterEach starts).1, (Registry.empty.enterEach starts).2, #[]⟩ s →
        ∀ i l, s.registry.location? i = some l → w.nth? o.charset starts i = some l) ∧
    ∀ e, (planPaths w o entries).value = .error e →
      (∃ path declaredIn, e = .missingDependency path declaredIn) ∨
        (∃ file directive, e = .malformedDirective file directive) ∨
        ∃ cycle, e = .cycleDetected cycle := by
  refine ⟨Discovery.discover_isError_iff, ?_, ?_, fun e => planPaths_eq_error⟩
  · rintro before entry after fault rfl hbefore hentry
    exact Discovery.discover_of_unreachable hbefore hentry
  · intro starts hs
    refine ⟨fun e => Discovery.discover_eq_error_iff hs, fun l => Workspace.finds_iff hs, ?_⟩
    intro s hr i l hi
    obtain ⟨m, hm⟩ := Discovery.runs_along hr (Discovery.along_begin w o.charset starts)
    exact hm.nth? hi

/-! ## A run over two faulty files -/

/-- The second file names one that is missing, and the third leaves a directive open. -/
def faulty : Workspace where
  current := []
  files := ⟨[
    (["a"], .file (Text.Utf8.encode "/*requires b*//*requires c*/".toList)),
    (["b"], .file (Text.Utf8.encode "/*requires d*/".toList)),
    (["c"], .file (Text.Utf8.encode "/*requires e".toList))]⟩

/-- Both are found, and the one named first is reported. -/
theorem faulty_reported :
    faulty.Faulty .utf8 ["c"] (.malformedDirective "/c" "/*requires e") ∧
    (discover faulty .utf8 ["a"]).value = .error (.missingDependency "/d" "/b") := by
  have hs : ["a"].map faulty.canonical = [["a"]].map .ok := by cbv
  have ha : faulty.Legible .utf8 ["a"] := by
    refine ⟨Text.Utf8.encode "/*requires b*//*requires c*/".toList, ⟨[], ["b", "c"]⟩, ?_, ?_, ?_⟩
    · cbv
    · cbv
    · intro reference hr
      rcases List.mem_pair.mp hr with rfl | rfl <;> cbv
  have hb : faulty.Faulty .utf8 ["b"] (.missingDependency "/d" "/b") := by
    have hread : faulty.files.read ["b"] = .ok (Text.Utf8.encode "/*requires d*/".toList) := by cbv
    have hsplit : (Directive.Parsed.mk [] ["d"]).requires = [] ++ "d" :: [] := rfl
    have hmissing : faulty.isFile (Directive.resolve "/" "d") = false := by cbv
    exact .missing hread (by cbv) hsplit (List.forall_mem_nil _) hmissing
  have hc : faulty.Faulty .utf8 ["c"] (.malformedDirective "/c" "/*requires e") := by
    have hread : faulty.files.read ["c"] = .ok (Text.Utf8.encode "/*requires e".toList) := by cbv
    exact .unclosed hread (by cbv)
  refine ⟨hc, (((faults_reported faulty {} ["a"]).2.2.1 [["a"]] hs).1 _).mpr ?_⟩
  refine ⟨1, ["b"], ?_, hb, ?_⟩
  · cbv
  · intro m hm k hk e' hfault
    obtain rfl : m = 0 := Nat.lt_one_iff.mp hm
    obtain rfl : ["a"] = k := Option.some.inj hk
    exact Discovery.not_legible_iff.mpr ⟨e', hfault⟩ ha

end SourceBundle.Plan
