import SourceBundle.Log
import SourceBundle.Options
import SourceBundle.Registry

/-! # Emission

Files are written to a sink one after the other. A sink may take only so many octets and may
refuse to be flushed; what it took before that stays.
-/
namespace SourceBundle

open Text.Utf8 (Octets)

structure Sink where
  /-- How many octets it still takes; without a number it takes them all. -/
  room : Option Nat := none
  /-- The answer to a write beyond its room. -/
  overflow : Fault := .refused "sink full"
  /-- The answer to a flush, if that fails. -/
  flushFault : Option Fault := none
  received : Octets := []
  /-- How many octets it had received when each flush was asked for. -/
  flushes : List Nat := []
deriving DecidableEq, Repr, Inhabited

namespace Sink

def write (sink : Sink) (octets : Octets) : Except Fault Unit × Sink :=
  match sink.room with
  | none => (.ok (), { sink with received := sink.received ++ octets })
  | some room =>
    ((if octets.length ≤ room then .ok () else .error sink.overflow),
      { sink with
        room := some (room - octets.length)
        received := sink.received ++ octets.take room })

def flush (sink : Sink) : Except Fault Unit × Sink :=
  ((match sink.flushFault with
    | some fault => .error fault
    | none => .ok ()), { sink with flushes := sink.flushes ++ [sink.received.length] })

end Sink

namespace Emission

/-- The marker line before a file. -/
def separatorLine (name : String) : String := "\n/*------" ++ name ++ "------*/\n"

/-- The texts that stand for a file in the output. -/
def texts (o : Options) (source : Source) : List (List Char) :=
  let contents := source.contents.getD []
  if o.separator then [(separatorLine source.name).toList, contents] else [contents]

def writeTexts (charset : Charset) (sink : Sink) : List (List Char) → Except Fault Unit × Sink
  | [] => (.ok (), sink)
  | text :: rest =>
    match sink.write (charset.encode text) with
    | (.error fault, sink) => (.error fault, sink)
    | (.ok (), sink) => writeTexts charset sink rest

/-- What emission leaves: its result, the sink and the lines recorded. -/
structure Outcome where
  result : Except Error Unit
  sink : Sink
  log : List Log.Line

def emit (o : Options) (sink : Sink) : List Source → Outcome
  | [] =>
    let (result, sink) := sink.flush
    ⟨result.mapError .write, sink, []⟩
  | source :: rest =>
    let line := Log.progress .emission ("Adding '" ++ source.name ++ "' to output.")
    match writeTexts o.charset sink (texts o source) with
    | (.error fault, sink) => ⟨.error (.write fault), sink, [line]⟩
    | (.ok (), sink) =>
      let outcome := emit o sink rest
      { outcome with log := line :: outcome.log }

end Emission

end SourceBundle
