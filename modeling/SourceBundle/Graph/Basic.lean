import SourceBundle.Log
import SourceBundle.Registry

/-! # Dependency graphs

An edge leads from a file to one that it needs. A file that names itself gets no edge, and a
file named twice gets one.
-/
namespace SourceBundle

/-- The nodes are the numbers below the length of `edges`. -/
structure Graph where
  /-- What each node needs, in the order of declaration. -/
  edges : List (List SourceId)
  /-- How many nodes need each node. -/
  dependents : List Nat
deriving DecidableEq, Repr, Inhabited

namespace Graph

def size (g : Graph) : Nat := g.edges.length

def nodes (g : Graph) : List SourceId := List.range g.size

def dependencies (g : Graph) (id : SourceId) : List SourceId := g.edges[id]?.getD []

def dependentCount (g : Graph) (id : SourceId) : Nat := g.dependents[id]?.getD 0

def edgeless (n : Nat) : Graph := ⟨List.replicate n [], List.replicate n 0⟩

def addEdge (id : SourceId) (g : Graph) (dependency : SourceId) : Graph :=
  if dependency = id ∨ dependency ∈ g.dependencies id then g
  else ⟨g.edges.modify id (· ++ [dependency]), g.dependents.modify dependency (· + 1)⟩

def addEdges (g : Graph) (node : Source × SourceId) : Graph :=
  node.1.dependencies.foldl (addEdge node.2) g

def ofRegistry (r : Registry) : Graph := r.sources.zipIdx.foldl addEdges (edgeless r.size)

def selfReferences (r : Registry) : List Log.Line :=
  r.sources.zipIdx.flatMap fun (source, id) =>
    (source.dependencies.filter (· = id)).map fun _ =>
      ⟨.debug, .graph, "Ignoring self reference in '" ++ source.path ++ "'", false⟩

def isUsed (g : Graph) (id : SourceId) : Bool :=
  !(g.dependencies id).isEmpty || 0 < g.dependentCount id

end Graph

end SourceBundle
