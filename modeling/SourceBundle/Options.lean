import SourceBundle.Charset

/-! # Options of a run -/
namespace SourceBundle

structure Options where
  /-- Reads the inputs and writes the output. -/
  charset : Charset := .utf8
  /-- Shows progress lines. -/
  verbose : Bool := false
  /-- Puts a marker line before each file. -/
  separator : Bool := false
  /-- Drops files that neither need nor are needed by another. -/
  eliminateUnused : Bool := false
deriving DecidableEq, Repr, Inhabited

end SourceBundle
