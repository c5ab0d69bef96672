import SourceBundle.FileSystem.Basic

/-! # Looking up paths

A workspace is a file system seen from a current directory. A path is followed piece by piece:
an empty piece or `.` stays, `..` goes up, a name goes down and a link is replaced by its
target. Every piece asks that the place reached so far be a directory. At most forty links are
followed on one way.
-/
namespace SourceBundle

open Text.Utf8 (Octets)

structure Workspace where
  files : FileSystem
  current : Location
deriving DecidableEq, Repr, Inhabited

/-- How many links may be followed on the way to one place. -/
def linkLimit : Nat := 40

def nameLimit : Nat := 255

/-- How many octets a path that is opened may have. -/
def pathLimit : Nat := 4095

namespace FileSystem

inductive Reached where
  | place (l : Location)
  /-- A link, to be followed from the directory it lies in. -/
  | link (target : String)

/-- The directory at a location, or the reason why it is none. -/
def asDirectory (fs : FileSystem) (l : Location) : Except Fault Unit :=
  match fs.find? l with
  | some .directory => .ok ()
  | some _ => .error .notDirectory
  | none => .error .notFound

def enter (fs : FileSystem) (l : Location) (piece : String) : Except Fault Reached := do
  fs.asDirectory l
  if Path.namesNothing piece then return .place l
  if piece = ".." then return .place l.parent
  if nameLimit < piece.utf8ByteSize then throw .nameTooLong
  match fs.find? (l ++ [piece]) with
  | some (.link target) => return .link target
  | some _ => return .place (l ++ [piece])
  | none => throw .notFound

/-- Where a path starts that is read in the directory `l`. -/
def origin (l : Location) (path : String) : Location := if Path.isAbsolute path then [] else l

/-- Follows the pieces from `l`; `links` bounds the links still to be followed. -/
def walk (fs : FileSystem) (links : Nat) (l : Location) (pieces : List String) :
    Except Fault Location :=
  match pieces with
  | [] => .ok l
  | piece :: rest =>
    match fs.enter l piece with
    | .error fault => .error fault
    | .ok (.place next) => walk fs links next rest
    | .ok (.link target) =>
      match links with
      | 0 => .error .tooManyLinks
      | n + 1 => walk fs n (origin l target) (Path.pieces target ++ rest)
termination_by (links, pieces.length)

/-- Follows the pieces like `walk`, but the place itself need not exist yet: its directory
must. -/
def locate (fs : FileSystem) (links : Nat) (l : Location) (pieces : List String) :
    Except Fault Location :=
  match pieces with
  | [] => .ok l
  | piece :: rest =>
    match fs.enter l piece with
    | .error .notFound =>
      if rest.isEmpty && (fs.asDirectory l).isOk then .ok (l ++ [piece]) else .error .notFound
    | .error fault => .error fault
    | .ok (.place next) => locate fs links next rest
    | .ok (.link target) =>
      match links with
      | 0 => .error .tooManyLinks
      | n + 1 => locate fs n (origin l target) (Path.pieces target ++ rest)
termination_by (links, pieces.length)

end FileSystem

namespace Workspace

/-- What no path may be: one that holds U+0000, or the empty one. -/
def accept (path : String) : Except Fault Unit :=
  if path.toList.contains '\x00' then .error .nulInPath
  else if path = "" then .error .notFound
  else .ok ()

def canonical (w : Workspace) (path : String) : Except Fault Location := do
  accept path
  w.files.walk linkLimit (FileSystem.origin w.current path) (Path.pieces path)

/-- The location that a path names, for a path short enough to be opened. -/
def place (w : Workspace) (path : String) : Except Fault Location := do
  accept path
  if pathLimit < path.utf8ByteSize then throw .nameTooLong
  w.canonical path

def entry? (w : Workspace) (path : String) : Option Entry :=
  match w.place path with
  | .ok l => w.files.find? l
  | .error _ => none

def isFile (w : Workspace) (path : String) : Bool := (w.entry? path).any Entry.isFile

def isDirectory (w : Workspace) (path : String) : Bool := w.entry? path = some .directory

def exists? (w : Workspace) (path : String) : Bool := (w.entry? path).isSome

def read (w : Workspace) (path : String) : Except Fault Octets := do
  w.files.read (← w.place path)

def readText (w : Workspace) (path : String) : Except Fault (List Char) := do
  match Text.Utf8.decode? (← w.read path) with
  | some text => return text
  | none => throw .notUtf8

end Workspace

end SourceBundle
