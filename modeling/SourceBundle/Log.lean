/-! # Log lines

Every part of a run records what it does. Progress lines are recorded always and shown only on
request, so asking for them cannot change anything else.
-/
namespace SourceBundle.Log

inductive Level where
  | error
  | warn
  | info
  | debug
  | trace
deriving DecidableEq, Repr, Inhabited

def Level.name : Level → String
  | error => "ERROR"
  | warn => "WARN"
  | info => "INFO"
  | debug => "DEBUG"
  | trace => "TRACE"

/-- How much a level lets through: 1 for errors only, up to 5. -/
def Level.rank : Level → Nat
  | error => 1
  | warn => 2
  | info => 3
  | debug => 4
  | trace => 5

/-- The part of the program that a line comes from. -/
inductive Origin where
  | discovery
  | graph
  | order
  | emission
  | inputs
  | combine
deriving DecidableEq, Repr, Inhabited

/-- The name by which a log filter selects the part. -/
def Origin.target : Origin → String
  | discovery => "file_combiner::phases::discovery"
  | graph => "file_combiner::phases::graph"
  | order => "file_combiner::phases::ordering"
  | emission => "file_combiner::phases::write"
  | inputs => "file_combiner::commands"
  | combine => "file_combiner::commands::combine"

structure Line where
  level : Level
  origin : Origin
  message : String
  /-- Shown only to who asks for progress. -/
  progress : Bool := false
deriving DecidableEq, Repr, Inhabited

/-- The lines that a run shows. -/
def shown (verbose : Bool) (lines : List Line) : List Line :=
  lines.filter fun line => verbose || !line.progress

/-- A line of progress. -/
def progress (origin : Origin) (message : String) : Line := ⟨.info, origin, message, true⟩

end SourceBundle.Log

namespace SourceBundle

/-- A result with the lines recorded on the way to it. -/
structure Logged (α : Type) where
  value : α
  log : List Log.Line
deriving DecidableEq, Repr, Inhabited

namespace Logged

def map {α β : Type} (f : α → β) (x : Logged α) : Logged β := ⟨f x.value, x.log⟩

/-- Goes on after a success; the lines of both parts stand in order. -/
def andThen {ε α β : Type} (x : Logged (Except ε α)) (f : α → Logged (Except ε β)) :
    Logged (Except ε β) :=
  match x.value with
  | .error e => ⟨.error e, x.log⟩
  | .ok a => let y := f a; ⟨y.value, x.log ++ y.log⟩

end Logged

end SourceBundle
