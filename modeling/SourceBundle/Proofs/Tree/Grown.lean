import SourceBundle.Proofs.Tree.Growth
import SourceBundle.Proofs.Tree.Nodes

/-! # Growing as a relation

What grows is told by rules, as a relation between the files expanded before and after. The rules
know of no room: only the limit that was asked for cuts a branch off, and without a limit nothing
does. The trees that are grown with room follow the rules, and nothing else does, so that there are
trees that follow them without a limit too.
-/
namespace SourceBundle.Tree

/-- Why a file below a root is shown as a leaf, and how it is marked then. The branch holds the files
above it, so that its length is the depth of the leaf. -/
inductive Closes (r : Registry) (limit : Option Nat) (branch expanded : List SourceId)
    (file : SourceId) : Mark → Prop
  | cycle (h : file ∈ branch) : Closes r limit branch expanded file .cycle
  /-- The file declares nothing. -/
  | bare (h : file ∉ branch) (hd : r.dependencies file = []) :
    Closes r limit branch expanded file .plain
  | cut (h : file ∉ branch) (hd : r.dependencies file ≠ []) (hl : limit = some branch.length) :
    Closes r limit branch expanded file .plain
  | seen (h : file ∉ branch) (hd : r.dependencies file ≠ []) (hl : limit ≠ some branch.length)
      (he : file ∈ expanded) : Closes r limit branch expanded file .seen

/-- A file below a root that is expanded. -/
structure Opens (r : Registry) (limit : Option Nat) (branch expanded : List SourceId)
    (file : SourceId) : Prop where
  not_mem_branch : file ∉ branch
  dependencies_ne_nil : r.dependencies file ≠ []
  not_cut : limit ≠ some branch.length
  not_mem_expanded : file ∉ expanded

/-- Growing the files of a list below a branch, one after the other, leads from the files expanded
before to the trees and the files expanded after. -/
inductive Grows (r : Registry) (limit : Option Nat) :
    List SourceId → List SourceId → List SourceId → List Tree → List SourceId → Prop
  | nil (branch expanded : List SourceId) : Grows r limit branch expanded [] [] expanded
  | leaf {branch expanded files after : List SourceId} {file : SourceId} {mark : Mark}
      {trees : List Tree} (h : Closes r limit branch expanded file mark)
      (hr : Grows r limit branch expanded files trees after) :
    Grows r limit branch expanded (file :: files) (leaf file mark :: trees) after
  | expand {branch expanded middle files after : List SourceId} {file : SourceId}
      {children trees : List Tree} (h : Opens r limit branch expanded file)
      (hc : Grows r limit (file :: branch) (file :: expanded) (r.dependencies file) children middle)
      (hr : Grows r limit branch middle files trees after) :
    Grows r limit branch expanded (file :: files) (node file .plain children :: trees) after

/-- The trees of roots, one after the other. A root is expanded even if it has been expanded before. -/
inductive Plants (r : Registry) (limit : Option Nat) :
    List SourceId → List SourceId → List Tree → List SourceId → Prop
  | nil (expanded : List SourceId) : Plants r limit expanded [] [] expanded
  /-- Only the roots are to be shown. -/
  | cut {expanded files after : List SourceId} {file : SourceId} {trees : List Tree}
      (hl : limit = some 0) (hr : Plants r limit (file :: expanded) files trees after) :
    Plants r limit expanded (file :: files) (leaf file .plain :: trees) after
  | root {expanded middle files after : List SourceId} {file : SourceId}
      {children trees : List Tree} (hl : limit ≠ some 0)
      (hc : Grows r limit [file] (file :: expanded) (r.dependencies file) children middle)
      (hr : Plants r limit middle files trees after) :
    Plants r limit expanded (file :: files) (node file .plain children :: trees) after

variable {r : Registry} {limit : Option Nat} {room : Nat}
  {branch expanded files after other : List SourceId} {file : SourceId} {mark kind : Mark}
  {trees trees' : List Tree}

/-! ## The rules leave no choice -/

theorem Closes.mark_eq (h : Closes r limit branch expanded file mark)
    (h' : Closes r limit branch expanded file kind) : mark = kind := by
  cases h <;> cases h' <;> first | rfl | contradiction

theorem Opens.not_closes (h : Opens r limit branch expanded file) :
    ¬Closes r limit branch expanded file mark := by
  rintro (hb | ⟨-, hd⟩ | ⟨-, -, hl⟩ | ⟨-, -, -, he⟩)
  · exact h.not_mem_branch hb
  · exact h.dependencies_ne_nil hd
  · exact h.not_cut hl
  · exact h.not_mem_expanded he

theorem Grows.unique (h : Grows r limit branch expanded files trees after)
    (h' : Grows r limit branch expanded files trees' other) : trees = trees' ∧ after = other := by
  induction h generalizing trees' other with
  | nil =>
    cases h'
    exact ⟨rfl, rfl⟩
  | leaf hl _ ih =>
    cases h' with
    | leaf hl' hr' =>
      obtain ⟨rfl, rfl⟩ := ih hr'
      rw [hl.mark_eq hl']
      exact ⟨rfl, rfl⟩
    | expand ho => exact absurd hl ho.not_closes
  | expand ho _ _ ihc ihr =>
    cases h' with
    | leaf hl => exact absurd hl ho.not_closes
    | expand _ hc' hr' =>
      obtain ⟨rfl, rfl⟩ := ihc hc'
      obtain ⟨rfl, rfl⟩ := ihr hr'
      exact ⟨rfl, rfl⟩

theorem Plants.unique (h : Plants r limit expanded files trees after)
    (h' : Plants r limit expanded files trees' other) : trees = trees' ∧ after = other := by
  induction h generalizing trees' other with
  | nil =>
    cases h'
    exact ⟨rfl, rfl⟩
  | cut hl _ ih =>
    cases h' with
    | cut _ hr' =>
      obtain ⟨rfl, rfl⟩ := ih hr'
      exact ⟨rfl, rfl⟩
    | root hn => exact absurd hl hn
  | root hn hc _ ih =>
    cases h' with
    | cut hl => exact absurd hl hn
    | root _ hc' hr' =>
      obtain ⟨rfl, rfl⟩ := hc.unique hc'
      obtain ⟨rfl, rfl⟩ := ih hr'
      exact ⟨rfl, rfl⟩

/-! ## What grows follows the rules -/

/-- The room below a branch cuts off no more than the limit does. -/
inductive Fits (r : Registry) : Option Nat → Nat → List SourceId → Prop
  | limited (room : Nat) (branch : List SourceId) : Fits r (some (room + branch.length)) room branch
  | unlimited {room : Nat} {branch : List SourceId} (h : Roomy r room branch) :
    Fits r none room branch

theorem Fits.push (h : Fits r limit (room + 1) branch) (hb : file ∉ branch) (hf : file < r.size) :
    Fits r limit room (file :: branch) := by
  cases h with
  | limited =>
    have hlength : room + 1 + branch.length = room + (file :: branch).length := by
      rw [List.length_cons]
      omega
    exact hlength ▸ .limited room (file :: branch)
  | unlimited h =>
    obtain ⟨n, hn, hroom⟩ := h.exists_succ hb hf
    exact .unlimited (Nat.succ.inj hn ▸ hroom)

theorem Fits.not_cut (h : Fits r limit (room + 1) branch) : limit ≠ some branch.length := by
  cases h with
  | limited => simp
  | unlimited => exact (Option.some_ne_none _).symm

theorem Fits.cut (h : Fits r limit 0 branch) (hb : file ∉ branch) (hd : r.dependencies file ≠ []) :
    limit = some branch.length := by
  cases h with
  | limited => rw [Nat.zero_add]
  | unlimited h =>
    obtain ⟨_, hn, -⟩ := h.exists_succ hb (Registry.lt_size_of_dependencies_ne_nil hd)
    cases hn

theorem Shown.grows {grown : Tree × List SourceId} (h : Shown r room branch expanded file grown)
    (hf : Fits r limit room branch)
    (ih : ∀ n, room = n + 1 → Fits r limit n (file :: branch) →
      Grows r limit (file :: branch) (file :: expanded) (r.dependencies file)
        (expand r n branch expanded file).1 (expand r n branch expanded file).2)
    (hr : Grows r limit branch grown.2 files trees after) :
    Grows r limit branch expanded (file :: files) (grown.1 :: trees) after := by
  cases h with
  | cycle _ _ hb => exact .leaf (.cycle hb) hr
  | bare _ _ hb hd => exact .leaf (.bare hb hd) hr
  | cut _ hb hd => exact .leaf (.cut hb hd (hf.cut hb hd)) hr
  | seen _ hb hd he => exact .leaf (.seen hb hd hf.not_cut he) hr
  | new room hb hd he =>
    have hpush := hf.push hb (Registry.lt_size_of_dependencies_ne_nil hd)
    exact .expand ⟨hb, hd, hf.not_cut, he⟩ (ih room rfl hpush) hr

theorem grows_growAll (hf : Fits r limit room branch) :
    Grows r limit branch expanded files (growAll (grow r room branch) expanded files).1
      (growAll (grow r room branch) expanded files).2 := by
  -- A file that is expanded uses up room; the others use up the list.
  induction room generalizing branch expanded files with
  | zero =>
    induction files generalizing expanded with
    | nil => exact .nil branch expanded
    | cons file files ihf =>
      refine (shown_grow r 0 branch expanded file).grows hf (fun n hn => ?_) ihf
      cases hn
  | succ room ih =>
    induction files generalizing expanded with
    | nil => exact .nil branch expanded
    | cons file files ihf =>
      refine (shown_grow r (room + 1) branch expanded file).grows hf (fun n hn hpush => ?_) ihf
      cases hn
      exact ih hpush

theorem fits_root {depth : Option Nat} (h : depth.getD (r.size + 1) = room + 1)
    (hf : file < r.size) : Fits r depth room [file] := by
  cases depth with
  | none =>
    obtain rfl := Nat.succ.inj h
    exact (Fits.unlimited (roomy_nil r.size.le_succ)).push List.not_mem_nil hf
  | some depth =>
    obtain rfl : depth = room + [file].length := h
    exact .limited room [file]

theorem grows_expand_root {depth : Option Nat} (h : depth.getD (r.size + 1) = room + 1)
    (expanded : List SourceId) (file : SourceId) :
    Grows r depth [file] (file :: expanded) (r.dependencies file)
      (expand r room [] expanded file).1 (expand r room [] expanded file).2 := by
  by_cases hd : r.dependencies file = []
  · rw [expand, hd]
    exact .nil [file] (file :: expanded)
  · exact grows_growAll (fits_root h (Registry.lt_size_of_dependencies_ne_nil hd))

theorem plants_growAll (r : Registry) (depth : Option Nat) (expanded files : List SourceId) :
    Plants r depth expanded files
      (growAll (root r (depth.getD (r.size + 1))) expanded files).1
      (growAll (root r (depth.getD (r.size + 1))) expanded files).2 := by
  cases hroom : depth.getD (r.size + 1) with
  | zero =>
    have hcut : depth = some 0 := by
      cases depth with
      | none => cases hroom
      | some depth => exact congrArg some hroom
    induction files generalizing expanded with
    | nil => exact .nil expanded
    | cons file files ih => exact .cut hcut (ih (file :: expanded))
  | succ room =>
    have hdeep : depth ≠ some 0 := by
      rintro rfl
      cases hroom
    induction files generalizing expanded with
    | nil => exact .nil expanded
    | cons file files ih => exact .root hdeep (grows_expand_root hroom expanded file) (ih _)

end SourceBundle.Tree
