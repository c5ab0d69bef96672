import SourceBundle.Command.Run

/-! # The disk

What a run needs is read from the disk into a workspace before it, and what it made is written
back after it. A link is known by the place it leads to in the end.
-/
namespace SourceBundle.Disk

open Text.Utf8 (Octets)

def entry? (l : Location) : IO (Option Entry) := do
  let path := (← IO.currentDir) / l.text
  try
    match (← path.symlinkMetadata).type with
    | .dir => return some .directory
    | .symlink => return some (.link (← IO.FS.realPath path).toString)
    | _ => return some (.file (← IO.FS.readBinFile path).toList)
  catch _ => return none

/-- Reads what lies on the way along some names. -/
partial def loadWay (files : FileSystem) (l : Location) : List String → IO FileSystem
  | [] => return files
  | piece :: rest => do
    if Path.namesNothing piece then return ← loadWay files l rest
    if piece = ".." then return ← loadWay files l.parent rest
    let next := l ++ [piece]
    let found ← match files.find? next with
      | some e => pure (some e)
      | none => entry? next
    match found with
    | none => return files
    | some (.link target) =>
      let files := files.insert next (.link target)
      loadWay files [] ((Path.pieces target).filter (!Path.namesNothing ·) ++ rest)
    | some e => loadWay (files.insert next e) next rest

def load (w : Workspace) (path : String) : IO Workspace := do
  let files ← loadWay w.files (FileSystem.origin w.current path) (Path.pieces path)
  return { w with files }

/-- Reads a directory with all that lies below it. -/
partial def loadTree (w : Workspace) (path : String) : IO Workspace := do
  let w ← load w path
  match w.canonical path with
  | .error _ => return w
  | .ok l =>
    if w.files.find? l ≠ some .directory then return w
    let names := (← ((← IO.currentDir) / l.text).readDir).toList.map fun e => e.fileName
    names.foldlM (fun w name => do
      let next := l ++ [name]
      if (w.files.find? next).isSome then return w
      loadTree w (Location.text next)) w

def loadAll (w : Workspace) (paths : List String) : IO Workspace := paths.foldlM load w

/-- The directory in which the wildcards of a path start. -/
def fixedPart (path : String) : String :=
  let fixed := (Path.pieces path).takeWhile (!Project.hasWildcard ·)
  if fixed.isEmpty then "." else String.intercalate "/" fixed ++ "/"

def loadProject (w : Workspace) (p : Project) : IO Workspace := do
  let w ← loadAll w p.resolvedOutput.toList
  p.inputs.foldlM (fun w input =>
    let path := Path.join p.baseDirectory input
    if Project.hasWildcard input then loadTree w (fixedPart path) else load w path) w

/-- Reads the files that others need, for as long as one is missing that the disk has. -/
partial def loadNeeded (w : Workspace) (charset : Charset) (files : List String) :
    IO Workspace := do
  match (discover w charset (files.filter (w.isFile ·))).value with
  | .error (.missingDependency path _) =>
    let next ← load w path
    if next.isFile path then loadNeeded next charset files else return next
  | _ => return w

def inputs : Command.Task → Option (Command.InputArguments × Option String)
  | .combine a output _ => some (a, output)
  | .order a _ | .tree a _ => some (a, none)
  | .completions _ => none

/-- Reads what a request may look at. -/
def loadRequest (w : Workspace) (r : Command.Request) : IO Workspace := do
  match inputs r.task with
  | none => return w
  | some (a, output) =>
    let w ← loadAll w (Project.defaultFile :: a.files ++ a.config.toList ++ output.toList)
    let w ← match (a.loadProject w).value with
      | .ok (some p) => loadProject w p
      | _ => pure w
    match (a.resolve w).value with
    | .ok resolved => loadNeeded w resolved.options.charset resolved.files
    | .error _ => return w

/-- Writes what a run made; directories come before what lies in them. -/
def store (before after : FileSystem) : IO Unit := do
  let made := after.entries.filter fun e => before.find? e.1 ≠ some e.2
  let ordered := made.mergeSort fun a b => a.1.length ≤ b.1.length
  for (l, e) in ordered do
    let path := (← IO.currentDir) / l.text
    match e with
    | .directory => IO.FS.createDir path
    | .file octets => IO.FS.writeBinFile path ⟨octets.toArray⟩
    | .link _ => pure ()

/-- The workspace of the current directory, with nothing read but the way to it. -/
def here : IO Workspace := do
  let current := (← IO.FS.realPath (← IO.currentDir)).toString
  let names := (Path.pieces current).filter (!Path.namesNothing ·)
  let files ← loadWay {} [] names
  return ⟨files, names⟩

end SourceBundle.Disk
