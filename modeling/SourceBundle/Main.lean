import SourceBundle.Disk

/-! # The program

Reads the arguments, the environment and the disk, runs the command and shows what it came to.
-/

open SourceBundle

def main (args : List String) : IO UInt32 := do
  let environment : Command.Environment :=
    { config := ← IO.getEnv "FILE_COMBINER_CONFIG", logFilter := ← IO.getEnv "RUST_LOG" }
  let w ← Disk.here
  let w ← match Command.Reader.read environment.config args with
    | .ok r => Disk.loadRequest w r
    | .error _ => pure w
  let x := Command.run w environment args
  Disk.store w.files x.files
  (← IO.getStdout).write ⟨x.output.toArray⟩
  (← IO.getStderr).putStr x.report
  return UInt32.ofNat x.code
