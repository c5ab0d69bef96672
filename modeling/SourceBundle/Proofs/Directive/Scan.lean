import SourceBundle.Proofs.Directive.Layout

/-! # The scanner reads the layout

Between two directives both positions of the scanner stand at the end of a closer. Inside a piece
only the search moves, over openers that do not count.
-/
namespace SourceBundle.Directive

variable {α : Type} [DecidableEq α] {sp : Spelling α} {text before tail piece : List α}
  {s t : Scan α} {m n k : Nat}

/-- An opener that counts stands at the position. -/
def Opens (sp : Spelling α) (text : List α) (n : Nat) : Prop :=
  Text.OccursAt sp.opener text n ∧ (text.take n).getLast? ≠ some sp.guard

theorem run_eq (sp : Spelling α) (text : List α) (s : Scan α) :
    run sp text s = match step sp text s with
      | .finished contents bodies => .ok (contents, bodies)
      | .unclosed n => .error n
      | .next t => run sp text t := by
  rw [run]
  split <;> rename_i h <;> rw [h]

theorem run_of_guarded (hf : Text.find? sp.opener (text.drop s.search) = some k)
    (hg : (text.take (s.search + k)).getLast? = some sp.guard) :
    run sp text s = run sp text { s with search := s.search + k + 1 } := by
  rw [run_eq]
  simp only [step, hf, if_pos hg]

/-! ## Up to the next opener that counts -/

/-- The scanner passes over the openers that do not count. -/
theorem run_skip (ho : Opens sp text n) (hs : s.search ≤ n)
    (hn : ∀ m, s.search ≤ m → m < n → ¬Opens sp text m) :
    ∃ k ≤ n, run sp text s = run sp text { s with search := k } ∧
      Text.find? sp.opener (text.drop k) = some (n - k) := by
  induction hd : n - s.search using Nat.strong_induction_on generalizing s with
  | _ d ih =>
    cases hf : Text.find? sp.opener (text.drop s.search) with
    | none =>
      have hat : Text.OccursAt sp.opener (text.drop s.search) (n - s.search) := by
        rw [Text.occursAt_drop, Nat.add_sub_cancel' hs]
        exact ho.1
      refine absurd (Text.infix_iff_occursAt.mpr ⟨_, ?_, hat⟩) (Text.find?_eq_none_iff.mp hf)
      exact (hat.lt_length sp.opens).le
    | some k =>
      obtain ⟨hat, hmin⟩ := Text.find?_eq_some_iff.mp hf
      rw [Text.occursAt_drop] at hat
      have hle : s.search + k ≤ n := by
        by_contra hlt
        refine hmin (n - s.search) (by omega) ?_
        rw [Text.occursAt_drop, Nat.add_sub_cancel' hs]
        exact ho.1
      by_cases hg : (text.take (s.search + k)).getLast? = some sp.guard
      · have hne : s.search + k ≠ n := by
          rintro rfl
          exact ho.2 hg
        have hnext : s.search + k + 1 ≤ n := by omega
        obtain ⟨j, hj, hrun, hfind⟩ := ih (n - (s.search + k + 1)) (by omega)
          (s := { s with search := s.search + k + 1 }) hnext
          (fun m hm => hn m (by simp only at hm; omega)) rfl
        exact ⟨j, hj, (run_of_guarded hf hg).trans hrun, hfind⟩
      · have heq : s.search + k = n := by
          by_contra hne
          exact hn (s.search + k) (Nat.le_add_right _ _) (by omega) ⟨hat, hg⟩
        refine ⟨s.search, hs, rfl, ?_⟩
        rw [hf, ← heq, Nat.add_sub_cancel_left]

theorem run_closed (ho : Opens sp text n) (hs : s.search ≤ n)
    (hn : ∀ m, s.search ≤ m → m < n → ¬Opens sp text m)
    (hc : Text.find? sp.closer (text.drop (n + sp.opener.length)) = some k) :
    run sp text s = run sp text
      ⟨n + sp.opener.length + k + sp.closer.length, n + sp.opener.length + k + sp.closer.length,
        s.contents ++ slice text s.copied n,
        s.bodies ++ [slice text (n + sp.opener.length) (n + sp.opener.length + k)]⟩ := by
  obtain ⟨j, hj, hrun, hf⟩ := run_skip ho hs hn
  rw [hrun, run_eq]
  simp only [step, hf, Nat.add_sub_cancel' hj, if_neg ho.2, hc]

theorem run_unclosed (ho : Opens sp text n) (hs : s.search ≤ n)
    (hn : ∀ m, s.search ≤ m → m < n → ¬Opens sp text m)
    (hc : Text.find? sp.closer (text.drop (n + sp.opener.length)) = none) :
    run sp text s = .error n := by
  obtain ⟨j, hj, hrun, hf⟩ := run_skip ho hs hn
  rw [hrun, run_eq]
  simp only [step, hf, Nat.add_sub_cancel' hj, if_neg ho.2, hc]

theorem run_finished (hn : ∀ m, s.search ≤ m → ¬Opens sp text m) :
    run sp text s = .ok (s.contents ++ text.drop s.copied, s.bodies) := by
  induction hd : text.length - s.search using Nat.strong_induction_on generalizing s with
  | _ d ih =>
    cases hf : Text.find? sp.opener (text.drop s.search) with
    | none =>
      rw [run_eq]
      simp only [step, hf]
    | some k =>
      have hat := (Text.occursAt_drop s.search).mp (Text.find?_eq_some_iff.mp hf).1
      have hlt := hat.lt_length sp.opens
      have hg : (text.take (s.search + k)).getLast? = some sp.guard := by
        by_contra hg
        exact hn _ (Nat.le_add_right _ _) ⟨hat, hg⟩
      rw [run_of_guarded hf hg]
      exact ih (text.length - (s.search + k + 1)) (by omega)
        (s := { s with search := s.search + k + 1 })
        (fun m hm => hn m (by simp only at hm; omega)) rfl

/-! ## Along a layout -/

omit [DecidableEq α] in
theorem getLast?_append_ne (hb : before.getLast? ≠ some sp.guard)
    (hp : piece.getLast? ≠ some sp.guard) : (before ++ piece).getLast? ≠ some sp.guard := by
  cases h : piece.getLast? with
  | none => simpa [List.getLast?_append, h] using hb
  | some c => simpa [List.getLast?_append, h] using hp

omit [DecidableEq α] in
/-- An opener that lies in a plain piece does not count, whatever stands around the piece. -/
theorem Plain.not_opens (hp : Plain sp piece) (hm : before.length ≤ m)
    (ho : Text.OccursAt sp.opener (before ++ piece) m) : ¬Opens sp (before ++ (piece ++ tail)) m := by
  have hlt := ho.lt_length sp.opens
  rw [Text.occursAt_append_iff hm] at ho
  obtain ⟨left, right, rfl, hl⟩ := ho.exists_eq (ho.lt_length sp.opens).le
  have hg := hp left right rfl
  have htake : (before ++ (left ++ sp.opener ++ right ++ tail)).take m = before ++ left := by
    have hlen : m = (before ++ left).length := by
      rw [List.length_append]
      omega
    rw [hlen, List.append_assoc, List.append_assoc, ← List.append_assoc before, List.take_left]
  rintro ⟨-, hne⟩
  rw [htake, List.getLast?_append, hg] at hne
  exact hne rfl

variable (p : Part sp)

omit [DecidableEq α] in
theorem Part.opens (hb : before.getLast? ≠ some sp.guard) :
    Opens sp (before ++ (p.opened ++ tail)) (before ++ p.piece).length := by
  have ht : before ++ (p.opened ++ tail) = before ++ p.piece ++ sp.opener ++ (p.body ++ tail) := by
    simp only [opened, List.append_assoc]
  refine ⟨ht ▸ Text.occursAt_append sp.opener (before ++ p.piece) (p.body ++ tail), ?_⟩
  rw [ht, List.append_assoc _ sp.opener, List.take_left]
  exact getLast?_append_ne hb p.unguarded

omit [DecidableEq α] in
theorem Part.not_opens (hr : sp.Regular) (hm : before.length ≤ m)
    (hn : m < (before ++ p.piece).length) : ¬Opens sp (before ++ (p.opened ++ tail)) m := by
  intro ho
  have ht : before ++ (p.opened ++ tail) = before ++ p.piece ++ sp.opener ++ (p.body ++ tail) := by
    simp only [opened, List.append_assoc]
  have hin := hr.opener.occursAt_left hn (ht ▸ ho.1)
  have hno : ¬Opens sp (before ++ (p.piece ++ (sp.opener ++ (p.body ++ tail)))) m :=
    p.plain.not_opens hm hin
  refine hno ?_
  simpa only [opened, List.append_assoc] using ho

omit [DecidableEq α] in
theorem slice_append (before piece tail : List α) :
    slice (before ++ (piece ++ tail)) before.length (before ++ piece).length = piece := by
  rw [slice, ← List.append_assoc, List.take_left, List.drop_left]

/-- The scanner between two directives. -/
def between (n : Nat) (contents : List α) (bodies : List (List α)) : Scan α :=
  ⟨n, n, contents, bodies⟩

theorem run_part (hr : sp.Regular) (hb : before.getLast? ≠ some sp.guard) (contents : List α)
    (bodies : List (List α)) (ht : text = before ++ (p.opened ++ (sp.closer ++ tail))) :
    run sp text (between before.length contents bodies) =
      run sp text (between (before ++ (p.opened ++ sp.closer)).length (contents ++ p.piece)
        (bodies ++ [p.body])) := by
  have hbody : text = before ++ p.piece ++ sp.opener ++ (p.body ++ (sp.closer ++ tail)) := by
    rw [ht, Part.opened]
    simp only [List.append_assoc]
  have hpiece : slice text before.length (before ++ p.piece).length = p.piece := by
    rw [hbody, List.append_assoc, List.append_assoc]
    exact slice_append _ _ _
  have hin : slice text (before ++ p.piece ++ sp.opener).length
      (before ++ p.piece ++ sp.opener ++ p.body).length = p.body := by
    rw [hbody]
    exact slice_append _ _ _
  have hclosed : Text.find? sp.closer (text.drop (before ++ p.piece ++ sp.opener).length) =
      some p.body.length := by
    rw [hbody, List.drop_left, ← List.append_assoc]
    exact hr.closer.find?_append p.inside
  have hlen : (before ++ p.piece ++ sp.opener).length =
      (before ++ p.piece).length + sp.opener.length := List.length_append
  have hend : (before ++ p.piece ++ sp.opener ++ p.body).length =
      (before ++ p.piece).length + sp.opener.length + p.body.length := by
    rw [List.length_append, hlen]
  rw [hlen] at hclosed
  rw [hend, hlen] at hin
  have hrun := run_closed (s := between before.length contents bodies) (ht ▸ p.opens hb)
    (by simp [between]) (fun m hm hlt => ht ▸ p.not_opens hr hm hlt) hclosed
  rw [hrun]
  simp only [between, hpiece, hin]
  simp only [Part.opened, List.length_append, Nat.add_assoc]

/-- Whatever follows, the scanner takes the closed directives out. -/
theorem run_joined (hr : sp.Regular) (parts : List (Part sp)) (contents : List α)
    (bodies : List (List α)) (hb : before.getLast? ≠ some sp.guard)
    (ht : text = before ++ (joined parts ++ tail)) :
    run sp text (between before.length contents bodies) =
        run sp text (between (before ++ joined parts).length
          (contents ++ parts.flatMap Part.piece) (bodies ++ parts.map Part.body)) ∧
      (before ++ joined parts).getLast? ≠ some sp.guard := by
  induction parts generalizing before contents bodies with
  | nil => simpa [joined] using hb
  | cons p parts ih =>
    have hlast : (before ++ (p.opened ++ sp.closer)).getLast? ≠ some sp.guard := by
      rw [← List.append_assoc, List.getLast?_append_of_ne_nil _ hr.closer.ne_nil]
      exact hr.free
    rw [joined_cons, List.append_assoc, List.append_assoc] at ht
    obtain ⟨hrun, hg⟩ := ih (contents ++ p.piece) (bodies ++ [p.body]) hlast
      (by rw [ht]; simp only [List.append_assoc])
    have hj : before ++ (p.opened ++ sp.closer) ++ joined parts =
        before ++ joined (p :: parts) := by
      rw [joined_cons]
      simp only [List.append_assoc]
    rw [hj] at hrun hg
    refine ⟨?_, hg⟩
    rw [run_part p hr hb contents bodies ht, hrun]
    simp only [List.flatMap_cons, List.map_cons, List.append_assoc, List.singleton_append]

theorem scan_layout (hr : sp.Regular) (l : Layout sp) :
    scan sp l.text = .ok (l.parts.flatMap Part.piece ++ l.last, l.parts.map Part.body) := by
  have ht : l.text = [] ++ (joined l.parts ++ l.last) := rfl
  obtain ⟨hrun, -⟩ := run_joined hr l.parts [] [] (by simp) ht
  have hn : ∀ m, (joined l.parts).length ≤ m → ¬Opens sp l.text m := by
    intro m hm ho
    have hno : ¬Opens sp (joined l.parts ++ (l.last ++ [])) m :=
      l.plain.not_opens hm ho.1
    rw [List.append_nil] at hno
    exact hno ho
  have hfin := run_finished (s := between (joined l.parts).length (l.parts.flatMap Part.piece)
    (l.parts.map Part.body)) hn
  simp only [List.nil_append] at hrun
  rw [scan, begin]
  refine hrun.trans (hfin.trans ?_)
  simp only [between, Layout.text, List.drop_left]

theorem scan_unclosed (hr : sp.Regular) (u : Unclosed sp) :
    scan sp u.text = .error (joined u.parts ++ u.rest.piece).length := by
  have ht : u.text = [] ++ (joined u.parts ++ u.rest.opened) := rfl
  obtain ⟨hrun, hg⟩ := run_joined hr u.parts [] [] (by simp) ht
  simp only [List.nil_append] at hrun hg
  have hopens : Opens sp (joined u.parts ++ (u.rest.opened ++ []))
      (joined u.parts ++ u.rest.piece).length := u.rest.opens hg
  have hno : ∀ m, (joined u.parts).length ≤ m → m < (joined u.parts ++ u.rest.piece).length →
      ¬Opens sp (joined u.parts ++ (u.rest.opened ++ [])) m :=
    fun m hm hlt => u.rest.not_opens hr hm hlt
  rw [List.append_nil] at hopens hno
  have hrest : u.text = joined u.parts ++ u.rest.piece ++ sp.opener ++ u.rest.body := by
    simp only [Unclosed.text, Part.opened, List.append_assoc]
  have hc : Text.find? sp.closer
      (u.text.drop ((joined u.parts ++ u.rest.piece).length + sp.opener.length)) = none := by
    rw [hrest, ← List.length_append, List.drop_left]
    exact Text.find?_eq_none_iff.mpr u.rest.inside
  refine hrun.trans (run_unclosed hopens ?_ hno hc)
  simp [between]

end SourceBundle.Directive
