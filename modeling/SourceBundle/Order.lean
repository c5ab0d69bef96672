import SourceBundle.Graph.Walk

/-! # Orders of emission -/
namespace SourceBundle

/-- The files to be written, in order. -/
abbrev Order := List SourceId

namespace Order

def position? (order : Order) (id : SourceId) : Option Nat := order.findIdx? (· = id)

/-- Leaves out the files that neither need nor are needed by another. -/
def dropUnused (order : Order) (g : Graph) (r : Registry) : Logged Order :=
  ⟨order.filter g.isUsed, (order.filter (!g.isUsed ·)).map fun id =>
    ⟨.debug, .order, "Eliminating unused file '" ++ r.path id ++ "'", false⟩⟩

end Order

end SourceBundle
