import SourceBundle.Charset
import SourceBundle.Options
import SourceBundle.Path

/-! # Projects

A project lists entry files, wildcard patterns among them, and may name an output and settings.
Relative paths are seen from the base directory.
-/
namespace SourceBundle

structure Project where
  inputs : List String := []
  output : Option String := none
  charset : Option Charset := none
  separator : Option Bool := none
  eliminateUnused : Option Bool := none
  baseDirectory : String := ""
deriving DecidableEq, Repr, Inhabited

namespace Project

/-- Where a project is looked for if none is named. -/
def defaultFile : String := ".combiner.yaml"

def fieldNames : List String := ["inputs", "output", "charset", "separator", "eliminate_unused"]

/-- Options with the settings of the project; a switch that is on stays on. -/
def applyTo (p : Project) (o : Options) : Options :=
  { o with
    charset := p.charset.getD o.charset
    separator := o.separator || p.separator.getD false
    eliminateUnused := o.eliminateUnused || p.eliminateUnused.getD false }

def resolvedOutput (p : Project) : Option String := p.output.map (Path.join p.baseDirectory)

end Project

end SourceBundle
