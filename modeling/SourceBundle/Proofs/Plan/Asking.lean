import SourceBundle.Proofs.Discovery.Asking
import SourceBundle.Proofs.Plan.Order

/-! # Plans and emission that ask before each progress line

Planning and writing ask the options too. What comes of them is again what comes of the runs that
record every line, with the lines that are wanted; and as a progress line is never a warning and
never a debug line, those are the same for all who run it.
-/
namespace SourceBundle

/-- An outcome with the lines that are wanted of those recorded. -/
def Emission.Outcome.shown (verbose : Bool) (x : Emission.Outcome) : Emission.Outcome :=
  { x with log := Log.shown verbose x.log }

namespace Asking

open Log (tell)

def emit (o : Options) (sink : Sink) : List Source → Emission.Outcome
  | [] =>
    let (result, sink) := sink.flush
    ⟨result.mapError .write, sink, []⟩
  | source :: rest =>
    let lines := tell o.verbose .emission fun _ => "Adding '" ++ source.name ++ "' to output."
    match Emission.writeTexts o.charset sink (Emission.texts o source) with
    | (.error fault, sink) => ⟨.error (.write fault), sink, lines⟩
    | (.ok (), sink) =>
      let outcome := emit o sink rest
      { outcome with log := lines ++ outcome.log }

def plan (w : Workspace) (o : Options) (entries : List String) : Logged (Except Error Plan) :=
  (discover w o entries).andThen (Plan.arrange o)

def planPaths (w : Workspace) (o : Options) (entries : List String) :
    Logged (Except Error Plan) :=
  let kept := filterEntries w o entries
  let planned := plan w o kept.value
  ⟨planned.value, kept.log ++ planned.log⟩

def carryOut (planned : Logged (Except Error Plan)) (sink : Sink) : Emission.Outcome :=
  match planned.value with
  | .error e => ⟨.error e, sink, planned.log⟩
  | .ok p =>
    let outcome := emit p.options sink p.sources
    { outcome with log := planned.log ++ outcome.log }

def combine (w : Workspace) (o : Options) (entries : List String) (sink : Sink) :
    Emission.Outcome :=
  carryOut (plan w o entries) sink

def combinePaths (w : Workspace) (o : Options) (entries : List String) (sink : Sink) :
    Emission.Outcome :=
  carryOut (planPaths w o entries) sink

/-! ## The lines that are wanted -/

variable {w : Workspace} {o : Options} {entries : List String} {p : Plan}

theorem emit_eq (o : Options) (sink : Sink) (sources : List Source) :
    emit o sink sources = (Emission.emit o sink sources).shown o.verbose := by
  induction sources generalizing sink with
  | nil => rfl
  | cons source sources ih =>
    simp only [emit, Emission.emit]
    rcases Emission.writeTexts o.charset sink (Emission.texts o source) with
      ⟨fault | ⟨⟨⟩⟩, sink⟩
    · simp only [Emission.Outcome.shown, Log.shown_progress]
    · simp only [ih, Emission.Outcome.shown, Log.shown_progress_cons]

theorem progress_arrange (o : Options) (d : Discovered) :
    ∀ line ∈ (Plan.arrange o d).log, line.progress = false := by
  have hself : ∀ line ∈ Graph.selfReferences d.registry, line.progress = false := by
    intro line hl
    obtain ⟨_, _, hl⟩ := List.mem_flatMap.mp hl
    obtain ⟨_, _, rfl⟩ := List.mem_map.mp hl
    rfl
  have hdropped : ∀ (order : Order) g, ∀ line ∈ (order.dropUnused g d.registry).log,
      line.progress = false := by
    intro order g line hl
    obtain ⟨_, _, rfl⟩ := List.mem_map.mp hl
    rfl
  unfold Plan.arrange
  cases d.registry.graph with
  | error e => exact hself
  | ok g =>
    dsimp only
    split
    · exact List.forall_mem_append.mpr ⟨hself, hdropped g.order g⟩
    · exact hself

theorem shown_arrange (verbose : Bool) (o : Options) (d : Discovered) :
    (Plan.arrange o d).shown verbose = Plan.arrange o d := by
  rw [Logged.shown, Log.shown_of_not_progress (progress_arrange o d)]

theorem shown_andThen {α β : Type} (verbose : Bool) (x : Logged (Except Error α))
    {f : α → Logged (Except Error β)} (hf : ∀ a, (f a).shown verbose = f a) :
    (x.andThen f).shown verbose = (x.shown verbose).andThen f := by
  unfold Logged.andThen
  have hvalue : (x.shown verbose).value = x.value := rfl
  rw [hvalue]
  cases x.value with
  | error e => rfl
  | ok a =>
    have hlog : Log.shown verbose (f a).log = (f a).log := congrArg Logged.log (hf a)
    simp only [Logged.shown, Log.shown_append, hlog]

theorem plan_eq (w : Workspace) (o : Options) (entries : List String) :
    plan w o entries = (SourceBundle.plan w o entries).shown o.verbose := by
  rw [plan, SourceBundle.plan, shown_andThen _ _ (shown_arrange o.verbose o), discover_eq]

theorem planPaths_eq (w : Workspace) (o : Options) (entries : List String) :
    planPaths w o entries = (SourceBundle.planPaths w o entries).shown o.verbose := by
  simp only [planPaths, SourceBundle.planPaths, filterEntries_eq, plan_eq, Logged.shown,
    Log.shown_append]

theorem carryOut_eq {planned : Logged (Except Error Plan)} {verbose : Bool} (sink : Sink)
    (h : ∀ p, planned.value = .ok p → p.options.verbose = verbose) :
    carryOut (planned.shown verbose) sink = (Plan.carryOut planned sink).shown verbose := by
  have hvalue : (planned.shown verbose).value = planned.value := rfl
  unfold carryOut Plan.carryOut
  rw [hvalue]
  cases hp : planned.value with
  | error e => rfl
  | ok p =>
    simp only [emit_eq, h p hp, Plan.writeTo, Emission.Outcome.shown, Log.shown_append]
    rfl

theorem options_of_plan (h : (SourceBundle.plan w o entries).value = .ok p) : p.options = o := by
  obtain ⟨starts, -, hplanned⟩ := Plan.plan_planned h
  exact hplanned.options

theorem combine_eq (w : Workspace) (o : Options) (entries : List String) (sink : Sink) :
    combine w o entries sink = (SourceBundle.combine w o entries sink).shown o.verbose := by
  rw [combine, plan_eq]
  exact carryOut_eq sink fun p hp => by rw [options_of_plan hp]

theorem combinePaths_eq (w : Workspace) (o : Options) (entries : List String) (sink : Sink) :
    combinePaths w o entries sink =
      (SourceBundle.combinePaths w o entries sink).shown o.verbose := by
  rw [combinePaths, planPaths_eq]
  exact carryOut_eq sink fun p hp => by rw [options_of_plan hp]

end Asking

/-! ## Lines of other levels -/

open Log (Marked marked_nil)

theorem Emission.marked_emit (o : Options) (sink : Sink) (sources : List Source) :
    Marked (emit o sink sources).log := by
  induction sources generalizing sink with
  | nil => exact marked_nil
  | cons source sources ih =>
    unfold emit
    dsimp only
    split
    · exact marked_nil.cons_progress _ _
    · exact (ih _).cons_progress _ _


theorem marked_plan (w : Workspace) (o : Options) (entries : List String) :
    Marked (plan w o entries).log := by
  unfold plan Logged.andThen
  split
  · exact Discovery.marked_discover w o.charset entries
  · exact (Discovery.marked_discover w o.charset entries).append
      (Log.marked_of_not_progress (Asking.progress_arrange o _))

theorem marked_planPaths (w : Workspace) (o : Options) (entries : List String) :
    Marked (planPaths w o entries).log :=
  (Discovery.marked_filterEntries w entries).append (marked_plan w o _)

theorem Plan.marked_carryOut {planned : Logged (Except Error Plan)} (h : Marked planned.log)
    (sink : Sink) : Marked (carryOut planned sink).log := by
  unfold carryOut
  split
  · exact h
  · exact h.append (Emission.marked_emit _ _ _)

/-! ## Whether progress is wanted -/

/-- The same options, but for the question whether progress is wanted. -/
def Options.asking (o : Options) (verbose : Bool) : Options := { o with verbose }

/-- The same plan under such options. -/
def Plan.asking (verbose : Bool) (p : Plan) : Plan :=
  { p with options := p.options.asking verbose }

variable {w : Workspace} {o : Options}

theorem Plan.arrange_asking (o : Options) (verbose : Bool) (d : Discovered) :
    arrange (o.asking verbose) d = (arrange o d).map (Except.map (Plan.asking verbose)) := by
  unfold arrange
  cases d.registry.graph with
  | error e => rfl
  | ok g =>
    obtain ⟨charset, _, separator, drops⟩ := o
    cases drops <;> rfl

theorem plan_asking (w : Workspace) (o : Options) (verbose : Bool) (entries : List String) :
    plan w (o.asking verbose) entries =
      (plan w o entries).map (Except.map (Plan.asking verbose)) := by
  have hcharset : (o.asking verbose).charset = o.charset := rfl
  rw [plan, plan, hcharset]
  unfold Logged.andThen
  cases (discover w o.charset entries).value with
  | error e => rfl
  | ok d => simp only [Plan.arrange_asking, Logged.map]

theorem planPaths_asking (w : Workspace) (o : Options) (verbose : Bool) (entries : List String) :
    planPaths w (o.asking verbose) entries =
      (planPaths w o entries).map (Except.map (Plan.asking verbose)) := by
  simp only [planPaths, plan_asking, Logged.map]

theorem Emission.emit_asking (o : Options) (verbose : Bool) (sink : Sink)
    (sources : List Source) : emit (o.asking verbose) sink sources = emit o sink sources := by
  induction sources generalizing sink with
  | nil => rfl
  | cons source sources ih =>
    have htexts : texts (o.asking verbose) source = texts o source := rfl
    have hcharset : (o.asking verbose).charset = o.charset := rfl
    simp only [emit, htexts, hcharset, ih]

theorem Plan.writeTo_asking (p : Plan) (verbose : Bool) (sink : Sink) :
    (p.asking verbose).writeTo sink = p.writeTo sink :=
  Emission.emit_asking p.options verbose sink p.sources

theorem Plan.carryOut_asking (planned : Logged (Except Error Plan)) (verbose : Bool)
    (sink : Sink) : carryOut (planned.map (Except.map (Plan.asking verbose))) sink =
      carryOut planned sink := by
  unfold carryOut Logged.map
  cases planned.value with
  | error e => rfl
  | ok p => simp only [Except.map, Plan.writeTo_asking]


/-- Two results are the same, and so are the lines on the way to them at every level but info. -/
structure Logged.Alike {α : Type} (x y : Logged α) : Prop where
  value : x.value = y.value
  log : Log.lasting x.log = Log.lasting y.log

/-- The same of two outcomes; both leave the sink alike. -/
structure Emission.Outcome.Alike (x y : Emission.Outcome) : Prop where
  result : x.result = y.result
  sink : x.sink = y.sink
  log : Log.lasting x.log = Log.lasting y.log

theorem Logged.alike_shown {α : Type} {x : Logged α} (h : Marked x.log) (verbose other : Bool) :
    (x.shown verbose).Alike (x.shown other) :=
  ⟨rfl, h.lasting_shown.trans h.lasting_shown.symm⟩

theorem Emission.Outcome.alike_shown {x : Emission.Outcome} (h : Marked x.log)
    (verbose other : Bool) : (x.shown verbose).Alike (x.shown other) :=
  ⟨rfl, rfl, h.lasting_shown.trans h.lasting_shown.symm⟩

namespace Asking

theorem filterEntries_alike (w : Workspace) (o : Options) (verbose : Bool)
    (entries : List String) :
    (filterEntries w (o.asking verbose) entries).Alike (filterEntries w o entries) := by
  rw [filterEntries_eq, filterEntries_eq]
  exact Logged.alike_shown (Discovery.marked_filterEntries w entries) _ _

theorem discover_alike (w : Workspace) (o : Options) (verbose : Bool) (entries : List String) :
    (discover w (o.asking verbose) entries).Alike (discover w o entries) := by
  rw [discover_eq, discover_eq]
  exact Logged.alike_shown (Discovery.marked_discover w o.charset entries) _ _

theorem plan_alike (w : Workspace) (o : Options) (verbose : Bool) (entries : List String) :
    (plan w (o.asking verbose) entries).Alike
      ((plan w o entries).map (Except.map (Plan.asking verbose))) := by
  have hmarked : Marked ((SourceBundle.plan w o entries).map
      (Except.map (Plan.asking verbose))).log := marked_plan w o entries
  rw [plan_eq, plan_eq, plan_asking]
  exact Logged.alike_shown hmarked verbose o.verbose

theorem planPaths_alike (w : Workspace) (o : Options) (verbose : Bool) (entries : List String) :
    (planPaths w (o.asking verbose) entries).Alike
      ((planPaths w o entries).map (Except.map (Plan.asking verbose))) := by
  have hmarked : Marked ((SourceBundle.planPaths w o entries).map
      (Except.map (Plan.asking verbose))).log := marked_planPaths w o entries
  rw [planPaths_eq, planPaths_eq, planPaths_asking]
  exact Logged.alike_shown hmarked verbose o.verbose

theorem combine_alike (w : Workspace) (o : Options) (verbose : Bool) (entries : List String)
    (sink : Sink) :
    (combine w (o.asking verbose) entries sink).Alike (combine w o entries sink) := by
  have hmarked := Plan.marked_carryOut (marked_plan w o entries) sink
  rw [combine_eq, combine_eq, SourceBundle.combine, plan_asking, Plan.carryOut_asking]
  exact Emission.Outcome.alike_shown hmarked verbose o.verbose

theorem combinePaths_alike (w : Workspace) (o : Options) (verbose : Bool) (entries : List String)
    (sink : Sink) :
    (combinePaths w (o.asking verbose) entries sink).Alike (combinePaths w o entries sink) := by
  have hmarked := Plan.marked_carryOut (marked_planPaths w o entries) sink
  rw [combinePaths_eq, combinePaths_eq, SourceBundle.combinePaths, planPaths_asking,
    Plan.carryOut_asking]
  exact Emission.Outcome.alike_shown hmarked verbose o.verbose

/-- Every phase, and all of them in a row, under the question and without it. -/
structure PhasesAlike (w : Workspace) (o : Options) (verbose : Bool) (entries : List String)
    (sink : Sink) : Prop where
  filterEntries :
    (filterEntries w (o.asking verbose) entries).Alike (filterEntries w o entries)
  discover : (discover w (o.asking verbose) entries).Alike (discover w o entries)
  plan : (plan w (o.asking verbose) entries).Alike
    ((plan w o entries).map (Except.map (Plan.asking verbose)))
  planPaths : (planPaths w (o.asking verbose) entries).Alike
    ((planPaths w o entries).map (Except.map (Plan.asking verbose)))
  combine : (combine w (o.asking verbose) entries sink).Alike (combine w o entries sink)
  combinePaths :
    (combinePaths w (o.asking verbose) entries sink).Alike (combinePaths w o entries sink)

theorem phases_alike (w : Workspace) (o : Options) (verbose : Bool) (entries : List String)
    (sink : Sink) : PhasesAlike w o verbose entries sink :=
  ⟨filterEntries_alike w o verbose entries, discover_alike w o verbose entries,
    plan_alike w o verbose entries, planPaths_alike w o verbose entries,
    combine_alike w o verbose entries sink, combinePaths_alike w o verbose entries sink⟩

end Asking

end SourceBundle
