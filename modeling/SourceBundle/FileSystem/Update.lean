import SourceBundle.FileSystem.Workspace

/-! # Creating files and directories

Each operation gives back the file system and, where it failed, the fault; a failure half way
leaves what was made before it.
-/
namespace SourceBundle.Workspace

open Text.Utf8 (Octets)

/-- The pieces before the last name, and that name; `none` where the path ends in no name of its
own, as in `a/..` or `/`. -/
def lastName (path : String) : List String × Option String :=
  match (Path.pieces path).reverse.dropWhile (· = "") with
  | [] => ([], none)
  | piece :: before =>
    (before.reverse, if piece = "." ∨ piece = ".." then none else some piece)

def createDirectory (w : Workspace) (path : String) : Except Fault FileSystem := do
  accept path
  if pathLimit < path.utf8ByteSize then throw .nameTooLong
  let (before, last) := lastName path
  let parent ← w.files.walk linkLimit (FileSystem.origin w.current path) before
  w.files.asDirectory parent
  match last with
  | none => throw .alreadyExists
  | some name =>
    if nameLimit < name.utf8ByteSize then throw .nameTooLong
    match w.files.find? (parent ++ [name]) with
    | some _ => throw .alreadyExists
    | none => return w.files.insert (parent ++ [name]) .directory

/-- Makes the first path of the list after making those behind it, its parents, where they are
missing. A directory that exists is as good as a new one. -/
def createEach (w : Workspace) : List String → FileSystem × Option Fault
  | [] => (w.files, none)
  | path :: parents =>
    if path = "" then (w.files, none)
    else match w.createDirectory path with
      | .ok files => (files, none)
      | .error .notFound =>
        match createEach w parents with
        | (files, some fault) => (files, some fault)
        | (files, none) =>
          match createDirectory ⟨files, w.current⟩ path with
          | .ok files => (files, none)
          | .error fault =>
            (files, if isDirectory ⟨files, w.current⟩ path then none else some fault)
      | .error fault => (w.files, if w.isDirectory path then none else some fault)

def createDirectories (w : Workspace) (path : String) : FileSystem × Option Fault :=
  w.createEach (Path.ancestors path)

def fileToCreate (w : Workspace) (path : String) : Except Fault Location := do
  accept path
  if pathLimit < path.utf8ByteSize then throw .nameTooLong
  let start := FileSystem.origin w.current path
  if path.toList.getLast? = some '/' then
    let parent ← w.files.walk linkLimit start (lastName path).1
    w.files.asDirectory parent
    throw .isDirectory
  let l ← w.files.locate linkLimit start (Path.pieces path)
  match w.files.find? l with
  | some .directory => throw .isDirectory
  | _ => return l

def writeFile (w : Workspace) (path : String) (octets : Octets) : Except Fault FileSystem := do
  return w.files.insert (← w.fileToCreate path) (.file octets)

end SourceBundle.Workspace
