import SourceBundle.FileSystem.Workspace

/-! # Patterns and what expands them

A pattern stands for paths. Whatever expands it is given the workspace and the text of the pattern,
and answers with the paths that the pattern finds or with the reason why the text is no pattern.
The paths of what lies in a directory are written by its names.
-/
namespace SourceBundle.Glob

/-- What expands patterns. The paths come in their order; where one could not be looked up, the
fault stands in its place. -/
class Expander where
  expand : Workspace → String → Except String (List (Except SourceBundle.Fault String))

/-- Whether a path is the current directory written as a dot. -/
def isHere (path : String) : Bool :=
  match Path.anchored path with
  | (.here, body) => (Path.settle body).isEmpty
  | _ => false

/-- The path of a name in a directory; names of the current directory stand alone. -/
def child (path name : String) : String := if isHere path then name else Path.join path name

/-- The names in the directory that a path leads to. -/
def names (w : Workspace) (path : String) : List String :=
  match w.place path with
  | .ok l => if w.files.find? l = some .directory then w.files.names l else []
  | .error _ => []

/-- The components of a text between slashes; a slash at the end starts none. -/
def components (text : List Char) : List (List Char) :=
  match (Text.split '/' text).reverse with
  | [] :: rest => rest.reverse
  | pieces => pieces.reverse

end SourceBundle.Glob
