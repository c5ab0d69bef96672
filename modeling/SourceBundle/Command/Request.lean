import SourceBundle.Text.Utf8

/-! # Requests

What a command line asks for, and what reads command lines. A line that asks for no task is
answered at once.
-/
namespace SourceBundle.Command

open Text.Utf8 (Octets)

structure InputArguments where
  files : List String := []
  config : Option String := none
  charset : Option String := none
  eliminateUnused : Bool := false
  verbose : Bool := false
deriving DecidableEq, Repr, Inhabited

inductive Task where
  | combine (inputs : InputArguments) (output : Option String) (separator : Bool)
  | order (inputs : InputArguments) (json : Bool)
  | tree (inputs : InputArguments) (depth : Option Nat)
  | completions (shell : String)
deriving DecidableEq, Repr

def Task.verbose : Task → Bool
  | combine i .. | order i _ | tree i _ => i.verbose
  | completions _ => false

structure Request where
  logLevel : String := "warn"
  task : Task
deriving DecidableEq, Repr

/-- An exit code and two texts, in the place of a run. -/
structure Answer where
  code : Nat
  output : Octets := []
  report : String := ""
deriving DecidableEq, Repr

/-- What reads command lines. The project file that the environment names comes with the line. -/
class Reader where
  read : Option String → List String → Except Answer Request
  /-- The script by which a shell completes command lines. -/
  completions : String → Octets

def printed (text : String) : Octets := Text.Utf8.encode text.toList

end SourceBundle.Command
