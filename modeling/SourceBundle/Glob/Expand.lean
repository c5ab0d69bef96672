import SourceBundle.Glob.Basic
import SourceBundle.Glob.Pattern

/-! # Expanding patterns

A pattern is expanded component by component. One without wildcards is only looked up; one with
wildcards is matched against the names of a directory, in the order of their code points. Two
stars yield a directory, what the rest of the pattern finds there, and then the same below it.
-/
namespace SourceBundle.Glob

variable (w : Workspace)

/-- Goes on from a name that has been met under the first pattern of a list. -/
def meet (go : List Pattern → String → List String) (patterns : List Pattern)
    (path name : String) : List String :=
  match patterns with
  | [] => []
  | pattern :: rest =>
    if pattern.isRecursive then
      let below := go (pattern :: rest) path
      match rest.dropWhile Pattern.isRecursive with
      | [] => if w.isDirectory path then path :: below else []
      | next :: rest => (if next.accepts name.toList then go rest path else []) ++ below
    else if pattern.accepts name.toList then go rest path else []

/-- The dot names, which only a pattern with a dot in front may match. -/
def dotNames (pattern : Pattern) : List String :=
  if pattern.head? = some (.char '.') then
    ["..", "."].filter fun name => pattern.accepts name.toList
  else []

/-- What the patterns find from a path on. The fuel bounds how deep the search goes. -/
def search (onlyDirectories : Bool) : Nat → List Pattern → String → List String
  | 0, _, _ => []
  | _ + 1, [], path => if onlyDirectories && !w.isDirectory path then [] else [path]
  | fuel + 1, pattern :: rest, path =>
    match pattern.literal? with
    | some text =>
      let name := String.ofList text
      let next := child path name
      let found := if name = "." ∨ name = ".." then w.isDirectory path else w.exists? next
      if found then search onlyDirectories fuel rest next else []
    | none =>
      if w.isDirectory path then
        (dotNames pattern).flatMap (fun name =>
            search onlyDirectories fuel rest (Path.join path name)) ++
          (names w path).flatMap fun name =>
            meet w (search onlyDirectories fuel) (pattern :: rest) (child path name) name
      else []

/-- The paths that a pattern finds. Each step of the search names one more component of a path,
and a path that is opened has no more of them than octets. -/
def expand (pattern : String) : Except Malformed (List String) := do
  let text := pattern.toList
  let _ ← Pattern.parse text
  let (start, body) := if Path.isAbsolute pattern then ("/", text.drop 1) else (".", text)
  let patterns ← (components body).mapM Pattern.parse
  let patterns := if body.isEmpty then [[]] else patterns
  return search w (text.getLast? = some '/') (pathLimit + patterns.length + 1) patterns start

/-- Expands by this search, which meets no faults. -/
instance : Expander where
  expand w pattern := ((expand w pattern).map (List.map .ok)).mapError Malformed.text

end SourceBundle.Glob
