import SourceBundle.Discovery
import SourceBundle.Emission
import SourceBundle.Order

/-! # Plans

A plan is what discovery found together with the order of emission. Nothing is written until
there is a plan, so a run that fails before leaves every sink as it was.
-/
namespace SourceBundle

structure Plan where
  discovered : Discovered
  order : Order
  options : Options
deriving DecidableEq, Repr, Inhabited

def Registry.cycleError (r : Registry) (members : List SourceId) : Error :=
  .cycleDetected (String.intercalate " -> " (members.map r.path))

/-- The graph of the files, unless some of them need each other. -/
def Registry.graph (r : Registry) : Except Error Graph :=
  match (Graph.ofRegistry r).cycle? with
  | some members => .error (r.cycleError members)
  | none => .ok (Graph.ofRegistry r)

namespace Plan

def registry (p : Plan) : Registry := p.discovered.registry

/-- The files to be written, in order. -/
def sources (p : Plan) : List Source := p.order.filterMap p.registry.source?

/-- Orders what has been discovered, unless files need each other. -/
def arrange (o : Options) (d : Discovered) : Logged (Except Error Plan) :=
  let lines := Graph.selfReferences d.registry
  match d.registry.graph with
  | .error e => ⟨.error e, lines⟩
  | .ok g =>
    if o.eliminateUnused then
      let kept := Order.dropUnused g.order g d.registry
      ⟨.ok ⟨d, kept.value, o⟩, lines ++ kept.log⟩
    else ⟨.ok ⟨d, g.order, o⟩, lines⟩

def writeTo (p : Plan) (sink : Sink) : Emission.Outcome := Emission.emit p.options sink p.sources

end Plan

/-- Plans a run over entries that must all exist. -/
def plan (w : Workspace) (o : Options) (entries : List String) : Logged (Except Error Plan) :=
  (discover w o.charset entries).andThen (Plan.arrange o)

/-- Plans a run over those entries that are files. -/
def planPaths (w : Workspace) (o : Options) (entries : List String) :
    Logged (Except Error Plan) :=
  let kept := Discovery.filterEntries w entries
  let planned := plan w o kept.value
  ⟨planned.value, kept.log ++ planned.log⟩

/-- Writes what has been planned; a failed plan does not touch the sink. -/
def Plan.carryOut (planned : Logged (Except Error Plan)) (sink : Sink) : Emission.Outcome :=
  match planned.value with
  | .error e => ⟨.error e, sink, planned.log⟩
  | .ok p =>
    let outcome := p.writeTo sink
    { outcome with log := planned.log ++ outcome.log }

def combine (w : Workspace) (o : Options) (entries : List String) (sink : Sink) :
    Emission.Outcome :=
  Plan.carryOut (plan w o entries) sink

def combinePaths (w : Workspace) (o : Options) (entries : List String) (sink : Sink) :
    Emission.Outcome :=
  Plan.carryOut (planPaths w o entries) sink

end SourceBundle
