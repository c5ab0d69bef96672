import SourceBundle.Glob.Expand
import SourceBundle.Proofs.FileSystem.Alike

/-! # Expansion does not read files

The search asks which names a directory has and what kind of entry a path leads to. So it goes the
same way in workspaces that look alike.
-/
namespace SourceBundle.Glob

variable {v w : Workspace} {fuel : Nat} {patterns : List Pattern} {path name pattern : String}

/-- What an expander finds does not depend on what files hold. -/
def Steady [Expander] : Prop :=
  ∀ v w : Workspace, v.Alike w → ∀ pattern, Expander.expand v pattern = Expander.expand w pattern

theorem meet_of_alike (h : v.Alike w) (go : List Pattern → String → List String) :
    meet v go patterns path name = meet w go patterns path name := by
  unfold meet
  simp only [h.isDirectory]

theorem search_of_alike (h : v.Alike w) (directories : Bool) :
    search v directories fuel patterns path = search w directories fuel patterns path := by
  induction fuel generalizing patterns path with
  | zero => rfl
  | succ fuel ih =>
    cases patterns with
    | nil => rw [search, search, h.isDirectory]
    | cons pattern rest =>
      have hgo : search v directories fuel = search w directories fuel :=
        funext fun patterns => funext fun path => ih
      rw [search, search]
      simp only [hgo, h.isDirectory, h.exists?, h.names, meet_of_alike h]

theorem steady : Steady := by
  intro v w h pattern
  have hexpand : expand v pattern = expand w pattern := by
    unfold expand
    simp only [search_of_alike h]
  exact congrArg (fun found : Except Malformed (List String) =>
    (found.map (List.map Except.ok)).mapError Malformed.text) hexpand

end SourceBundle.Glob
