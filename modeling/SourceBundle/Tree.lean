import SourceBundle.Discovery
import SourceBundle.Tree.Builder

/-! # Dependency trees

The tree below an entry file shows what each file declares, in order. A file on the current
branch is shown as a cycle, a file already expanded elsewhere as seen above; both are leaves,
so each file is expanded once.
-/
namespace SourceBundle.Tree

/-- The tree of an entry file, and the files expanded with it. -/
def build (r : Registry) (limit : Option Nat) (expanded : List SourceId) (file : SourceId) :
    Tree × List SourceId :=
  let s := (Builder.begin expanded file).finish r limit
  (s.tree, s.expanded)

/-- Applies a growing step to each file in turn; the files expanded so far go from one to the
next. -/
def growAll (grow : List SourceId → SourceId → Tree × List SourceId)
    (expanded : List SourceId) : List SourceId → List Tree × List SourceId
  | [] => ([], expanded)
  | file :: rest =>
    let (tree, expanded) := grow expanded file
    let (trees, expanded) := growAll grow expanded rest
    (tree :: trees, expanded)

/-- The trees of entry files, down to `depth` levels below them. -/
def forest (r : Registry) (depth : Option Nat) (files : List SourceId) : List Tree :=
  (growAll (build r depth) [] files).1

/-! ## Drawing -/

def Mark.text : Mark → String
  | plain => ""
  | cycle => " (cycle)"
  | seen => " (see above)"

mutual

/-- The lines of a tree: `first` stands before its own line, `rest` before those below it. -/
def lines (label : SourceId → String) (first rest : String) : Tree → List String
  | node file mark children =>
    (first ++ label file ++ mark.text) :: childLines label rest children

def childLines (label : SourceId → String) (margin : String) : List Tree → List String
  | [] => []
  | [tree] => lines label (margin ++ "└─ ") (margin ++ "   ") tree
  | tree :: trees =>
    lines label (margin ++ "├─ ") (margin ++ "│  ") tree ++ childLines label margin trees

end

/-- The path by which a file is shown. -/
def label (r : Registry) (base : Location) (id : SourceId) : String :=
  (r.source? id).elim "" fun s => Location.textFrom base s.location

def draw (r : Registry) (base : Location) (trees : List Tree) : String :=
  String.join ((trees.flatMap (lines (label r base) "" "")).map (· ++ "\n"))

end SourceBundle.Tree
