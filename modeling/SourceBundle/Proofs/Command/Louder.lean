import Mathlib.Data.List.Basic
import SourceBundle.Command.Arguments
import SourceBundle.Proofs.Outcome

/-! # One more switch on a command line

Two command lines that differ in the switch for progress are read side by side. What has been given
differs in that switch alone, until the end or until both are refused for the same reason; only a
line that gives the switch itself is refused when it is given once more.
-/
namespace SourceBundle.Command

namespace Given

/-- The switch for progress has been given. -/
def Loud (g : Given) : Prop := Switch.verbose ∈ g.switches

/-- The same has been given, and the switch for progress besides. -/
structure Louder (g h : Given) : Prop where
  quiet : ¬g.Loud
  switches : ∀ s, s ∈ h.switches ↔ s = .verbose ∨ s ∈ g.switches
  settings : h.settings = g.settings
  operands : h.operands = g.operands

end Given

/-- What reading comes to without the switch and with it: the same, unless the switch is given
twice. -/
inductive Follows {α : Type} (Loud : α → Prop) (Louder : α → α → Prop) :
    Except Stop α → Except Stop α → Prop
  | ok {a b : α} (h : Louder a b) : Follows Loud Louder (.ok a) (.ok b)
  | stop (e : Stop) : Follows Loud Louder (.error e) (.error e)
  | twice {x : Except Stop α} (h : ∀ a, x = .ok a → Loud a) :
    Follows Loud Louder x (.error .misuse)

theorem Follows.bind {α β : Type} {Loud : α → Prop} {Louder : α → α → Prop} {Loud' : β → Prop}
    {Louder' : β → β → Prop} {x y : Except Stop α} {f : α → Except Stop β}
    (h : Follows Loud Louder x y) (hf : ∀ a b, Louder a b → Follows Loud' Louder' (f a) (f b))
    (hloud : ∀ a b, Loud a → f a = .ok b → Loud' b) :
    Follows Loud' Louder' (x.bind f) (y.bind f) := by
  cases h with
  | ok h => exact hf _ _ h
  | stop e => exact .stop e
  | twice h =>
    refine .twice fun b hb => ?_
    cases x with
    | error e => cases hb
    | ok a => exact hloud a b (h a rfl) hb

theorem Follows.map {α β : Type} {Loud : α → Prop} {Louder : α → α → Prop} {Loud' : β → Prop}
    {Louder' : β → β → Prop} {x y : Except Stop α} {f : α → β} (h : Follows Loud Louder x y)
    (hf : ∀ a b, Louder a b → Louder' (f a) (f b)) (hloud : ∀ a, Loud a → Loud' (f a)) :
    Follows Loud' Louder' (x.map f) (y.map f) := by
  cases h with
  | ok h => exact .ok (hf _ _ h)
  | stop e => exact .stop e
  | twice h =>
    refine .twice fun b hb => ?_
    obtain ⟨a, ha, rfl⟩ := map_ok hb
    exact hloud a (h a ha)

namespace Given

variable {g h : Given} {ps : List Named} {verb : Verb}

/-- What has been given and the setting that wants its value, with the switch besides. -/
def LouderPending (p q : Pending) : Prop := Louder p.1 q.1 ∧ p.2 = q.2

def LoudPending (p : Pending) : Prop := p.1.Loud

/-! ## The switch stays given -/

theorem Loud.addSwitch {s : Switch} (hg : g.Loud) (he : g.addSwitch s = .ok h) : h.Loud := by
  unfold Given.addSwitch at he
  split at he
  · cases he
  · split at he
    · cases he
    · split at he
      · cases he
      · cases he
        exact List.mem_cons_of_mem _ hg

theorem Loud.addSetting {s : Setting} {value : String} (hg : g.Loud)
    (he : g.addSetting s value = .ok h) : h.Loud := by
  unfold Given.addSetting at he
  split at he
  · cases he
  · cases he
    exact hg

theorem exists_addOperand_eq (verb : Verb) (operand : String) :
    ∃ accepted : List String → Bool, ∀ g : Given, g.addOperand verb operand =
      if accepted g.operands then .ok { g with operands := operand :: g.operands }
      else .error .misuse := by
  cases verb with
  | completions =>
    exact ⟨fun operands => operands.isEmpty && shells.contains operand, fun _ => rfl⟩
  | _ => exact ⟨fun _ => operand ≠ "", fun _ => rfl⟩

theorem Loud.addOperand {operand : String} (hg : g.Loud)
    (he : g.addOperand verb operand = .ok h) : h.Loud := by
  obtain ⟨accepted, haccepted⟩ := exists_addOperand_eq verb operand
  rw [haccepted] at he
  split at he
  · cases he
    exact hg
  · cases he

theorem Loud.addNamed {name : String} {value : Option String} {p : Pending} (hg : g.Loud)
    (he : g.addNamed ps name value = .ok p) : LoudPending p := by
  unfold Given.addNamed at he
  split at he
  · obtain ⟨h, hh, rfl⟩ := map_ok he
    exact hg.addSwitch hh
  · obtain ⟨h, hh, rfl⟩ := map_ok he
    exact hg.addSetting hh
  · cases he
    exact hg
  · cases he

theorem Loud.addLetters {letters : List Char} {p : Pending} (hg : g.Loud)
    (he : g.addLetters ps letters = .ok p) : LoudPending p := by
  induction letters generalizing g with
  | nil =>
    cases he
    exact hg
  | cons c rest ih =>
    unfold Given.addLetters at he
    split at he
    · rename_i s _
      cases hs : g.addSwitch s with
      | error e =>
        rw [hs] at he
        cases he
      | ok h =>
        rw [hs] at he
        exact ih (hg.addSwitch hs) he
    · split at he
      · cases he
        exact hg
      · obtain ⟨h, hh, rfl⟩ := map_ok he
        exact hg.addSetting hh
      · obtain ⟨h, hh, rfl⟩ := map_ok he
        exact hg.addSetting hh
    · cases he

theorem Loud.addMarked {arg : String} {p : Pending} (hg : g.Loud)
    (he : addMarked ps g arg = .ok p) : LoudPending p := by
  unfold Command.addMarked at he
  split at he
  · exact hg.addNamed he
  · exact hg.addLetters he

theorem Loud.scan {wanting : Option Setting} {bare : Bool} {args : List String} (hg : g.Loud)
    (he : scan verb g wanting bare args = .ok h) : h.Loud := by
  induction args generalizing g wanting bare with
  | nil =>
    unfold Command.scan at he
    split at he
    · cases he
    · cases he
      exact hg
  | cons arg rest ih =>
    unfold Command.scan at he
    split at he
    · split at he
      · cases he
      · obtain ⟨g', hs, he⟩ := bind_ok he
        exact ih (hg.addSetting hs) he
    · split at he
      · obtain ⟨g', hs, he⟩ := bind_ok he
        exact ih (hg.addOperand hs) he
      · split at he
        · exact ih hg he
        · obtain ⟨p, hs, he⟩ := bind_ok he
          exact ih (hg.addMarked hs) he

/-! ## Reading both lines -/

theorem Louder.setting?_eq (hl : Louder g h) (s : Setting) : h.setting? s = g.setting? s := by
  rw [setting?, setting?, hl.settings]

theorem Louder.addSwitch (hl : Louder g h) (s : Switch) :
    Follows Loud Louder (g.addSwitch s) (h.addSwitch s) := by
  unfold Given.addSwitch
  by_cases hhelp : s = .help
  · simp only [if_pos hhelp]
    exact .stop .help
  by_cases hversion : s = .version
  · simp only [if_neg hhelp, if_pos hversion]
    exact .stop .version
  simp only [if_neg hhelp, if_neg hversion]
  by_cases hverbose : s = .verbose
  · subst hverbose
    have hquiet : Switch.verbose ∉ g.switches := hl.quiet
    rw [if_neg hquiet, if_pos ((hl.switches _).mpr (Or.inl rfl))]
    refine .twice fun a ha => ?_
    cases ha
    exact List.mem_cons_self
  by_cases hs : s ∈ g.switches
  · rw [if_pos hs, if_pos ((hl.switches s).mpr (Or.inr hs))]
    exact .stop .misuse
  · have hs' : s ∉ h.switches := fun hm => ((hl.switches s).mp hm).elim hverbose hs
    rw [if_neg hs, if_neg hs']
    refine .ok ⟨fun hm => ?_, fun t => ?_, hl.settings, hl.operands⟩
    · exact (List.mem_cons.mp hm).elim (fun he => hverbose he.symm) hl.quiet
    · rw [List.mem_cons, List.mem_cons, hl.switches, or_left_comm]

theorem Louder.addSetting (hl : Louder g h) (s : Setting) (value : String) :
    Follows Loud Louder (g.addSetting s value) (h.addSetting s value) := by
  unfold Given.addSetting
  rw [hl.setting?_eq]
  split
  · exact .stop .misuse
  · exact .ok ⟨hl.quiet, hl.switches, congrArg ((s, value) :: ·) hl.settings, hl.operands⟩

theorem Louder.addOperand (hl : Louder g h) (verb : Verb) (operand : String) :
    Follows Loud Louder (g.addOperand verb operand) (h.addOperand verb operand) := by
  obtain ⟨accepted, haccepted⟩ := exists_addOperand_eq verb operand
  rw [haccepted, haccepted, hl.operands]
  split
  · exact .ok ⟨hl.quiet, hl.switches, hl.settings, rfl⟩
  · exact .stop .misuse

theorem Louder.addNamed (hl : Louder g h) (ps : List Named) (name : String)
    (value : Option String) :
    Follows LoudPending LouderPending (g.addNamed ps name value) (h.addNamed ps name value) := by
  unfold Given.addNamed
  split
  · exact (hl.addSwitch _).map (fun _ _ hl' => ⟨hl', rfl⟩) fun _ hg => hg
  · exact (hl.addSetting _ _).map (fun _ _ hl' => ⟨hl', rfl⟩) fun _ hg => hg
  · exact .ok ⟨hl, rfl⟩
  · exact .stop .misuse

theorem Louder.addLetters (hl : Louder g h) (ps : List Named) (letters : List Char) :
    Follows LoudPending LouderPending (g.addLetters ps letters) (h.addLetters ps letters) := by
  induction letters generalizing g h with
  | nil => exact .ok ⟨hl, rfl⟩
  | cons c rest ih =>
    unfold Given.addLetters
    split
    · exact (hl.addSwitch _).bind (fun _ _ hl' => ih hl') fun _ _ hg => hg.addLetters
    · split
      · exact .ok ⟨hl, rfl⟩
      · exact (hl.addSetting _ _).map (fun _ _ hl' => ⟨hl', rfl⟩) fun _ hg => hg
      · exact (hl.addSetting _ _).map (fun _ _ hl' => ⟨hl', rfl⟩) fun _ hg => hg
    · exact .stop .misuse

theorem Louder.addMarked (hl : Louder g h) (ps : List Named) (arg : String) :
    Follows LoudPending LouderPending (addMarked ps g arg) (addMarked ps h arg) := by
  unfold Command.addMarked
  split
  · exact hl.addNamed ps _ _
  · exact hl.addLetters ps _

theorem Louder.scan (hl : Louder g h) (verb : Verb) (wanting : Option Setting) (bare : Bool)
    (args : List String) :
    Follows Loud Louder (scan verb g wanting bare args) (scan verb h wanting bare args) := by
  induction args generalizing g h wanting bare with
  | nil =>
    unfold Command.scan
    split
    · exact .stop .misuse
    · exact .ok hl
  | cons arg rest ih =>
    unfold Command.scan
    split
    · split
      · exact .stop .misuse
      · exact (hl.addSetting _ arg).bind (fun _ _ hl' => ih hl' _ _) fun _ _ hg => hg.scan
    · split
      · exact (hl.addOperand verb arg).bind (fun _ _ hl' => ih hl' _ _) fun _ _ hg => hg.scan
      · split
        · exact ih hl _ _
        · refine (hl.addMarked _ arg).bind (fun p q hpq => ?_) fun _ _ hg => Loud.scan hg
          obtain ⟨g', wanting'⟩ := p
          obtain ⟨h', _⟩ := q
          obtain ⟨hl', rfl⟩ := hpq
          exact ih hl' _ _

end Given

/-! ## Where a parameter may stand -/

variable {verb : Verb} {g top : Given} {front middle : List String} {environment : Option String}

/-- The command line reads so far that the arguments of a command follow. -/
def Names (front : List String) (top : Given) (verb : Verb) : Prop :=
  ∀ rest, scanTop {} none (front ++ rest) = .ok (top, verb, rest)

/-- Behind these arguments a parameter may stand: no setting wants its value, and no double dash
makes operands of all that follow. -/
def Open (verb : Verb) (middle : List String) (g : Given) : Prop :=
  ∀ rest, scan verb {} none false (middle ++ rest) = scan verb g none false rest

/-- A parameter may stand right behind the command. -/
theorem open_nil (verb : Verb) : Open verb [] {} := fun _ => rfl

/-- One argument in front of the command: another one, the command, or nothing that is right. -/
theorem scanTop_cons (g : Given) (wanting : Option Setting) (arg : String) :
    (∃ g' wanting', ∀ rest, scanTop g wanting (arg :: rest) = scanTop g' wanting' rest) ∨
      (∃ verb, ∀ rest, scanTop g wanting (arg :: rest) = .ok (g, verb, rest)) ∨
      ∀ rest, ∃ stop, scanTop g wanting (arg :: rest) = .error stop := by
  cases wanting with
  | some s =>
    by_cases hm : isMarked arg
    · exact Or.inr (Or.inr fun rest => ⟨.misuse, by rw [scanTop, if_pos hm]⟩)
    cases hs : g.addSetting s arg with
    | error stop =>
      refine Or.inr (Or.inr fun rest => ⟨stop, ?_⟩)
      rw [scanTop, if_neg hm, hs]
      rfl
    | ok g' =>
      refine Or.inl ⟨g', none, fun rest => ?_⟩
      rw [scanTop, if_neg hm, hs]
      rfl
  | none =>
    cases hv : verbs.lookup arg with
    | some verb => exact Or.inr (Or.inl ⟨verb, fun rest => by simp only [scanTop, hv]⟩)
    | none =>
      by_cases hh : arg = "help"
      · refine Or.inr (Or.inr fun rest => ⟨if isTopic rest then .help else .misuse, ?_⟩)
        simp only [scanTop, hv, if_pos hh]
      by_cases hm : isMarked arg
      · cases ha : addMarked (parameters none) g arg with
        | error stop =>
          refine Or.inr (Or.inr fun rest => ⟨stop, ?_⟩)
          simp only [scanTop, hv, if_neg hh, if_pos hm, ha]
          rfl
        | ok p =>
          refine Or.inl ⟨p.1, p.2, fun rest => ?_⟩
          simp only [scanTop, hv, if_neg hh, if_pos hm, ha]
          rfl
      · refine Or.inr (Or.inr fun rest => ⟨.misuse, ?_⟩)
        simp only [scanTop, hv, if_neg hh, if_neg hm]

theorem exists_front {wanting : Option Setting} {args rest : List String}
    (h : scanTop g wanting args = .ok (top, verb, rest)) :
    ∃ front, args = front ++ rest ∧
      ∀ others, scanTop g wanting (front ++ others) = .ok (top, verb, others) := by
  induction args generalizing g wanting with
  | nil => cases h
  | cons arg args ih =>
    rcases scanTop_cons g wanting arg with ⟨g', wanting', hnext⟩ | ⟨verb', hverb⟩ | hstop
    · rw [hnext] at h
      obtain ⟨front, rfl, hfront⟩ := ih h
      exact ⟨arg :: front, rfl, fun others => (hnext _).trans (hfront others)⟩
    · rw [hverb] at h
      cases h
      exact ⟨[arg], rfl, hverb⟩
    · obtain ⟨stop, hstop⟩ := hstop args
      rw [hstop] at h
      cases h

/-- Wherever a command is read, its name can be told from what follows it. -/
theorem exists_names {args rest : List String} (h : scanTop {} none args = .ok (top, verb, rest)) :
    ∃ front, args = front ++ rest ∧ Names front top verb :=
  exists_front h

/-! ## Requests -/

/-- The request that what has been given amounts to. -/
def Given.asked (g : Given) (environment : Option String) (top : Given) (verb : Verb) :
    Except Stop Request := do
  let logLevel := ((g.setting? .logLevel).or (top.setting? .logLevel)).getD "warn"
  let task ← match verb with
    | .combine => do
      let inputs ← g.inputs environment
      pure (.combine inputs (g.setting? .output) (g.switches.contains .separator))
    | .order => do
      let inputs ← g.inputs environment
      pure (.order inputs (g.switches.contains .json))
    | .tree => do
      let inputs ← g.inputs environment
      pure (.tree inputs ((g.setting? .depth).bind count?))
    | .completions =>
      match g.operands with
      | shell :: _ => pure (.completions shell)
      | [] => throw .misuse
  return { logLevel, task }

theorem request_of_names (h : Names front top verb) (environment : Option String)
    (rest : List String) : request environment (front ++ rest) =
      (scan verb {} none false rest).bind (·.asked environment top verb) := by
  rw [request, h rest]
  rfl

theorem request_of_open (h : Names front top verb) (ho : Open verb middle g)
    (environment : Option String) (rest : List String) :
    request environment (front ++ (middle ++ rest)) =
      (scan verb g none false rest).bind (·.asked environment top verb) := by
  rw [request_of_names h, ho rest]

/-- The same arguments, but for the question whether progress is wanted. -/
def InputArguments.asking (verbose : Bool) (a : InputArguments) : InputArguments :=
  { a with verbose }

/-- The same task, but for this question. -/
def Task.asking (verbose : Bool) : Task → Task
  | .combine a output separator => .combine (a.asking verbose) output separator
  | .order a json => .order (a.asking verbose) json
  | .tree a depth => .tree (a.asking verbose) depth
  | .completions shell => .completions shell

def Request.asking (verbose : Bool) (r : Request) : Request :=
  { r with task := r.task.asking verbose }

def Request.Loud (r : Request) : Prop := r.task.verbose = true

/-- The second request is the first with progress. -/
def Request.Louder (r s : Request) : Prop := r.task.verbose = false ∧ s = r.asking true

/-- How the switch for progress is spelled. -/
def flags : List String := ["-v", "--verbose"]

variable {h : Given} {flag : String}

theorem addMarked_flag (hv : verb ≠ .completions) (hf : flag ∈ flags) (g : Given) :
    addMarked (parameters verb) g flag = (g.addSwitch .verbose).map (·, none) := by
  have hletters : addMarked (parameters verb) g "-v" =
      g.addLetters (parameters verb) ['v'] := rfl
  have hname : addMarked (parameters verb) g "--verbose" =
      g.addNamed (parameters verb) "verbose" none := rfl
  have hfound : (parameters verb).find? (·.letter = some 'v') =
        some ⟨"verbose", some 'v', .switch .verbose⟩ ∧
      (parameters verb).find? (·.name = "verbose") =
        some ⟨"verbose", some 'v', .switch .verbose⟩ := by
    cases verb with
    | completions => exact absurd rfl hv
    | _ => decide
  rcases List.mem_pair.mp hf with rfl | rfl
  · rw [hletters, Given.addLetters, hfound.1]
    rfl
  · rw [hname]
    unfold Given.addNamed
    rw [hfound.2]

theorem scan_flag (hv : verb ≠ .completions) (hf : flag ∈ flags) (g : Given)
    (rest : List String) : scan verb g none false (flag :: rest) =
      (g.addSwitch .verbose).bind fun g => scan verb g none false rest := by
  have hmarked : isMarked flag = true ∧ flag ≠ "--" := by
    rcases List.mem_pair.mp hf with rfl | rfl <;> decide
  rw [scan]
  simp only [hmarked.1, hmarked.2, addMarked_flag hv hf]
  cases g.addSwitch .verbose <;> rfl

theorem follows_flag (hv : verb ≠ .completions) (hf : flag ∈ flags) (g : Given)
    (rest : List String) : Follows Given.Loud Given.Louder (scan verb g none false rest)
      (scan verb g none false (flag :: rest)) := by
  rw [scan_flag hv hf]
  by_cases hg : g.Loud
  · have hadd : g.addSwitch .verbose = .error .misuse := if_pos hg
    rw [hadd]
    exact .twice fun _ => hg.scan
  · have hadd : g.addSwitch .verbose = .ok { g with switches := .verbose :: g.switches } :=
      if_neg hg
    rw [hadd]
    have hl : g.Louder { g with switches := .verbose :: g.switches } :=
      ⟨hg, fun _ => List.mem_cons, rfl, rfl⟩
    exact hl.scan verb none false rest

theorem Given.Loud.contains (hg : g.Loud) : g.switches.contains .verbose = true :=
  List.contains_iff_mem.mpr hg

theorem Given.Louder.contains_verbose (hl : g.Louder h) :
    g.switches.contains .verbose = false ∧ h.switches.contains .verbose = true :=
  ⟨Bool.eq_false_iff.mpr fun hg => hl.quiet (List.contains_iff_mem.mp hg),
    List.contains_iff_mem.mpr ((hl.switches _).mpr (Or.inl rfl))⟩

theorem Given.Louder.contains_eq (hl : g.Louder h) {s : Switch} (hs : s ≠ .verbose) :
    h.switches.contains s = g.switches.contains s := by
  rw [Bool.eq_iff_iff, List.contains_iff_mem, List.contains_iff_mem, hl.switches]
  exact or_iff_right hs

theorem Given.verbose_of_inputs {a : InputArguments} (ha : g.inputs environment = .ok a) :
    a.verbose = g.switches.contains .verbose := by
  unfold Given.inputs at ha
  dsimp only at ha
  split at ha
  · cases ha
  · cases ha
    rfl

theorem Given.Louder.inputs (hl : g.Louder h) (environment : Option String) :
    h.inputs environment = (g.inputs environment).map (InputArguments.asking true) := by
  have hdrops : h.switches.contains .eliminateUnused = g.switches.contains .eliminateUnused :=
    hl.contains_eq (by decide)
  unfold Given.inputs
  simp only [hl.setting?_eq, hl.operands, hdrops, hl.contains_verbose.2]
  split <;> rfl

theorem Given.Louder.asked (hl : g.Louder h) (hv : verb ≠ .completions)
    (environment : Option String) (top : Given) :
    Follows Request.Loud Request.Louder (g.asked environment top verb)
      (h.asked environment top verb) := by
  have hseparator : h.switches.contains .separator = g.switches.contains .separator :=
    hl.contains_eq (by decide)
  have hjson : h.switches.contains .json = g.switches.contains .json := hl.contains_eq (by decide)
  unfold Given.asked
  simp only [hl.inputs environment, hl.setting?_eq, hseparator, hjson]
  cases ha : g.inputs environment with
  | error stop =>
    cases verb with
    | completions => exact absurd rfl hv
    | _ => exact .stop stop
  | ok a =>
    have hquiet : a.verbose = false := (verbose_of_inputs ha).trans hl.contains_verbose.1
    cases verb with
    | completions => exact absurd rfl hv
    | _ => exact .ok ⟨hquiet, rfl⟩

theorem Given.Loud.asked {r : Request} (hg : g.Loud) (hv : verb ≠ .completions)
    (h : g.asked environment top verb = .ok r) : r.Loud := by
  unfold Given.asked at h
  cases ha : g.inputs environment with
  | error stop =>
    rw [ha] at h
    cases verb with
    | completions => exact absurd rfl hv
    | _ => cases h
  | ok a =>
    have hloud : a.verbose = true := (verbose_of_inputs ha).trans hg.contains
    rw [ha] at h
    cases verb with
    | completions => exact absurd rfl hv
    | _ =>
      cases h
      exact hloud

theorem request_follows (hn : Names front top verb) (ho : Open verb middle g)
    (hv : verb ≠ .completions) (hf : flag ∈ flags) (environment : Option String)
    (rest : List String) : Follows Request.Loud Request.Louder
      (request environment (front ++ (middle ++ rest)))
      (request environment (front ++ (middle ++ flag :: rest))) := by
  rw [request_of_open hn ho, request_of_open hn ho]
  exact (follows_flag hv hf g rest).bind (fun _ _ hl => hl.asked hv environment top)
    fun _ _ hg => hg.asked hv

/-- A request without progress is read as one with progress then. -/
theorem Follows.of_quiet {x y : Except Stop Request} {r : Request}
    (h : Follows Request.Loud Request.Louder x y) (hx : x = .ok r) (hq : r.task.verbose = false) :
    y = .ok (r.asking true) := by
  cases h with
  | ok h =>
    cases hx
    rw [h.2]
  | stop e => cases hx
  | twice h =>
    have hloud : r.task.verbose = true := h r hx
    rw [hq] at hloud
    cases hloud

end SourceBundle.Command
