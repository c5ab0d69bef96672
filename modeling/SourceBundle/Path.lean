import SourceBundle.Text.Search

/-! # Path texts

A path is a text whose pieces stand between slashes. Joining and taking the parent work on the
text as written: nothing is looked up and `..` is kept. Empty pieces and `.` pieces name
nothing, except a `.` at the very start.
-/
namespace SourceBundle.Path

def isAbsolute (path : String) : Bool := path.toList.head? = some '/'

/-- The pieces between slashes, empty ones included. -/
def pieces (path : String) : List String := (Text.split '/' path.toList).map String.ofList

/-- An absolute path stands alone; a relative one follows the directory and one slash. -/
def join (directory path : String) : String :=
  if isAbsolute path then path
  else
    let base := directory.toList
    if base.isEmpty || base.getLast? = some '/' then directory ++ path
    else directory ++ "/" ++ path

/-- What a path starts with: the root, the current directory written out, or a name. -/
inductive Anchor where
  | root
  | here
  | none
deriving DecidableEq, Repr

/-- The anchor and the pieces after it. -/
def anchored (path : String) : Anchor × List String :=
  match pieces path with
  | "" :: body => if isAbsolute path then (.root, body) else (.none, [])
  | "." :: body => (.here, body)
  | body => (.none, body)

def namesNothing (piece : String) : Bool := piece = "" || piece = "."

/-- The pieces without those at the end that name nothing. -/
def settle (body : List String) : List String := (body.reverse.dropWhile namesNothing).reverse

def write (anchor : Anchor) (body : List String) : String :=
  let text := String.intercalate "/" body
  match anchor with
  | .root => "/" ++ text
  | .here => if body.isEmpty then "." else "./" ++ text
  | .none => text

/-- The path without its last name; `none` where there is no name to drop. -/
def parent? (path : String) : Option String :=
  let (anchor, body) := anchored path
  match (settle body).reverse with
  | _ :: rest => some (write anchor (settle rest.reverse))
  | [] => if anchor = .here then some "" else none

/-- The path and its parents, the nearest first. -/
def ancestors (path : String) : List String :=
  go path.length path
where
  go : Nat → String → List String
    | 0, path => [path]
    | n + 1, path => path :: match parent? path with
      | some parent => go n parent
      | none => []

end SourceBundle.Path
