import SourceBundle.Proofs.Command.Asking
import SourceBundle.Proofs.Command.Combine

/-! # Progress changes no result

Whoever asks for progress gets more lines and nothing else: the same files found and read, the same
order, the same errors and the same octets, and from a command the same exit code, the same output
and the same files.
-/
namespace SourceBundle.Command

variable {w : Workspace} {a : InputArguments} {o : Options} {environment : Environment}

section Inputs

variable [Project.Decoder] [Glob.Expander]

theorem withInputs_asking (w : Workspace) (a : InputArguments) (verbose : Bool)
    {f : Resolved → Performed} (h : ∀ inputs, f (inputs.asking verbose) = f inputs) :
    withInputs w (a.asking verbose) f = withInputs w a f := by
  unfold withInputs
  rw [InputArguments.resolve_asking]
  dsimp only [Logged.map]
  cases (a.resolve w).value with
  | error report => rfl
  | ok inputs => simp only [Except.map, h]

end Inputs

theorem withPlan_asking (w : Workspace) (o : Options) (files : List String) (verbose : Bool)
    {f : Plan → Performed} (h : ∀ p, f (p.asking verbose) = f p) :
    withPlan w (o.asking verbose) files f = withPlan w o files f := by
  unfold withPlan
  rw [planPaths_asking]
  dsimp only [Logged.map]
  cases (planPaths w o files).value with
  | error e => rfl
  | ok p => simp only [Except.map, h]

theorem writeFile_asking (w : Workspace) (p : Plan) (path : String) (verbose : Bool) :
    writeFile w (p.asking verbose) path = writeFile w p path := by
  unfold writeFile
  rw [Plan.writeTo_asking]
  rfl

section Runs

variable [Project.Decoder] [Glob.Expander]

/-- What a command records and what comes of it do not depend on the question. -/
theorem perform_asking [Reader] (w : Workspace) (t : Task) (verbose : Bool) :
    perform w (t.asking verbose) = perform w t := by
  cases t with
  | combine a output separator =>
    refine withInputs_asking w a verbose fun inputs => ?_
    refine withPlan_asking w (inputs.combining separator) inputs.files verbose fun p => ?_
    have houtput : (inputs.asking verbose).output = inputs.output := rfl
    rw [houtput]
    cases output.or inputs.output with
    | some path => exact writeFile_asking w p path verbose
    | none => simp only [Plan.writeTo_asking]
  | order a json =>
    refine withInputs_asking w a verbose fun inputs => ?_
    exact withPlan_asking w inputs.options inputs.files verbose fun p => rfl
  | tree a depth => exact withInputs_asking w a verbose fun inputs => rfl
  | completions shell => rfl

end Runs

/-- Two executions have the same exit code and the same output and leave the same files. -/
structure Execution.Same (x y : Execution) : Prop where
  code : x.code = y.code
  output : x.output = y.output
  files : x.files = y.files

section

variable [Project.Decoder] [Glob.Expander]

theorem execute_asking [Reader] (w : Workspace) (environment : Environment) (r : Request)
    (verbose : Bool) :
    (execute w environment (r.asking verbose)).Same (execute w environment r) := by
  have hperform : perform w (r.asking verbose).task = perform w r.task :=
    perform_asking w r.task verbose
  unfold execute
  simp only [hperform]
  cases (perform w r.task).result with
  | error report => exact ⟨rfl, rfl, rfl⟩
  | ok output => exact ⟨rfl, rfl, rfl⟩

theorem run_same {args more : List String}
    (h : Follows Request.Loud Request.Louder (request environment.config args)
      (request environment.config more))
    (hm : request environment.config more ≠ .error .misuse ∨
      request environment.config args = .error .misuse) :
    (run w environment more).Same (run w environment args) := by
  unfold run
  dsimp only [Reader.read]
  generalize request environment.config args = x at h hm
  generalize request environment.config more = y at h hm
  cases h with
  | ok h =>
    rename_i r s
    obtain ⟨-, rfl⟩ := h
    exact execute_asking w environment r true
  | stop e => exact ⟨rfl, rfl, rfl⟩
  | twice h =>
    rcases hm with hm | rfl
    · exact absurd rfl hm
    · exact ⟨rfl, rfl, rfl⟩

theorem run_asking [Reader] {args more : List String} {r : Request} {verbose : Bool}
    (h : Reader.read environment.config args = .ok r)
    (hm : Reader.read environment.config more = .ok (r.asking verbose)) :
    (run w environment more).Same (run w environment args) := by
  unfold run
  rw [h, hm]
  exact execute_asking w environment r verbose

/-- Whether progress is wanted changes nothing but progress lines, and these are of level info. The
same holds of a command, and so of two lines, whoever reads them, that ask for the same but for
progress. By the rules of this library that is so of the switch put in wherever a parameter may
stand: a line that does not ask for progress yet becomes the same request with progress, and unless
the switch is refused the line comes to the same. -/
theorem progress_changes_nothing (w : Workspace) (o : Options) (verbose : Bool)
    (entries : List String) (sink : Sink) (environment : Environment) :
    SourceBundle.Asking.PhasesAlike w o verbose entries sink ∧
      (∀ [Reader] (t : Task),
        (Asking.perform w (t.asking verbose)).result = (Asking.perform w t).result ∧
          (Asking.perform w (t.asking verbose)).files = (Asking.perform w t).files) ∧
      (∀ [Reader] (r : Request),
        (execute w environment (r.asking verbose)).Same (execute w environment r)) ∧
      (∀ [Reader] (args more : List String) (r : Request),
        Reader.read environment.config args = .ok r →
        Reader.read environment.config more = .ok (r.asking verbose) →
          (run w environment more).Same (run w environment args)) ∧
      ∀ front top verb middle g, Names front top verb → Open verb middle g →
        verb ≠ .completions → ∀ flag ∈ flags, ∀ rest,
          (∀ r, request environment.config (front ++ (middle ++ rest)) = .ok r →
            r.task.verbose = false →
            request environment.config (front ++ (middle ++ flag :: rest)) =
              .ok (r.asking true)) ∧
          (request environment.config (front ++ (middle ++ flag :: rest)) ≠ .error .misuse ∨
              request environment.config (front ++ (middle ++ rest)) = .error .misuse →
            (run w environment (front ++ (middle ++ flag :: rest))).Same
              (run w environment (front ++ (middle ++ rest)))) := by
  refine ⟨SourceBundle.Asking.phases_alike w o verbose entries sink, fun t => ?_,
    fun r => execute_asking w environment r verbose,
    fun args more r hr hm => run_asking hr hm, ?_⟩
  · rw [Asking.perform_eq, Asking.perform_eq, perform_asking]
    exact ⟨rfl, rfl⟩
  · intro front top verb middle g hn ho hv flag hf rest
    have hfollows := request_follows hn ho hv hf environment.config rest
    exact ⟨fun r hr hq => hfollows.of_quiet hr hq, run_same hfollows⟩

end

/-- The switch stands behind the output, and the output takes the place of the input all the
same. -/
theorem letters_verbose :
    request none ["combine", "-o", "a", "-v", "a"] =
        .ok ⟨"warn", .combine { files := ["a"], verbose := true } (some "a") false⟩ ∧
      (run Discovery.letters {} ["combine", "-o", "a", "-v", "a"]).Same
        (run Discovery.letters {} ["combine", "-o", "a", "a"]) := by
  have hr : request none ["combine", "-o", "a", "a"] =
      .ok ⟨"warn", .combine { files := ["a"] } (some "a") false⟩ := by
    cbv
  have hnames : Names ["combine"] {} .combine := fun _ => rfl
  have hopen : Open .combine ["-o", "a"] { settings := [(.output, "a")] } := fun _ => rfl
  obtain ⟨-, -, -, -, hlines⟩ := progress_changes_nothing Discovery.letters {} true ["a"] {} {}
  obtain ⟨hread, hsame⟩ := hlines ["combine"] {} .combine ["-o", "a"] _ hnames hopen (by decide)
    "-v" (by decide) ["a"]
  have hmore := hread _ hr rfl
  refine ⟨hmore, hsame (Or.inl fun hmisuse => ?_)⟩
  cases hmore.symm.trans hmisuse

end SourceBundle.Command
