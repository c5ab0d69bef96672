import SourceBundle.Fault
import SourceBundle.Path
import SourceBundle.Text.Utf8

/-! # File systems

A file system is a table of entries by location; the root is a directory without being in the
table. A location is the list of names from the root, so it is canonical by form: no `.`, no
`..`, no link on the way is written in it.
-/
namespace SourceBundle

open Text.Utf8 (Octets)

/-- The names that lead from the root to a place. -/
abbrev Location := List String

namespace Location

def text (l : Location) : String :=
  if l = [] then "/" else String.join (l.map ("/" ++ ·))

def parent (l : Location) : Location := l.dropLast

/-- The last name; the whole text where there is none. -/
def name (l : Location) : String := l.getLast?.getD (text l)

/-- The place as seen from `base`: the names after it, or the whole text if it lies elsewhere. -/
def textFrom (base l : Location) : String :=
  if base <+: l then String.intercalate "/" (l.drop base.length) else text l

end Location

inductive Entry where
  | file (octets : Octets)
  | directory
  | link (target : String)
deriving DecidableEq, Repr, Inhabited

def Entry.isFile : Entry → Bool
  | .file _ => true
  | _ => false

structure FileSystem where
  entries : List (Location × Entry) := []
deriving DecidableEq, Repr, Inhabited

namespace FileSystem

def find? (fs : FileSystem) (l : Location) : Option Entry :=
  if l = [] then some .directory else fs.entries.lookup l

def insert (fs : FileSystem) (l : Location) (e : Entry) : FileSystem :=
  ⟨(l, e) :: fs.entries.filter (·.1 ≠ l)⟩

def erase (fs : FileSystem) (l : Location) : FileSystem :=
  ⟨fs.entries.filter fun e => !l.isPrefixOf e.1⟩

def move (fs : FileSystem) (source target : Location) : FileSystem :=
  let (moved, kept) := fs.entries.partition fun e => source.isPrefixOf e.1
  ⟨moved.map (fun e => (target ++ e.1.drop source.length, e.2))
    ++ kept.filter fun e => !target.isPrefixOf e.1⟩

/-- The names in a directory, in the order of their code points. -/
def names (fs : FileSystem) (l : Location) : List String :=
  let here := fs.entries.filterMap fun e =>
    if e.1.dropLast = l then e.1.getLast? else none
  here.eraseDups.mergeSort (fun a b => decide (a ≤ b))

def read (fs : FileSystem) (l : Location) : Except Fault Octets :=
  match fs.find? l with
  | some (.file octets) => .ok octets
  | some .directory => .error .isDirectory
  | some (.link _) | none => .error .notFound

end FileSystem

end SourceBundle
