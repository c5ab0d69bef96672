import SourceBundle.Command.Request

/-! # Command lines

A command line names one of four commands. Parameters are switches or settings; a setting takes
its value from behind an equals sign, from the rest of a cluster of letters, or from the next
argument, which must not look like a parameter. Each parameter may be given once to a command.
The log level may also be given in front of the command, and the inner one wins.
-/
namespace SourceBundle.Command

inductive Verb where
  | combine
  | order
  | tree
  | completions
deriving DecidableEq, Repr

inductive Switch where
  | separator
  | eliminateUnused
  | verbose
  | json
  | help
  | version
deriving DecidableEq, Repr

inductive Setting where
  | logLevel
  | output
  | config
  | charset
  | depth
deriving DecidableEq, Repr

inductive Parameter where
  | switch (s : Switch)
  | setting (s : Setting)
deriving DecidableEq, Repr

/-- A parameter with its name and, where it has one, its letter. -/
structure Named where
  name : String
  letter : Option Char
  parameter : Parameter
deriving DecidableEq, Repr

/-! ## What each command takes -/

def verbs : List (String × Verb) :=
  [("combine", .combine), ("order", .order), ("tree", .tree), ("completions", .completions)]

def shells : List String := ["bash", "zsh", "fish", "powershell", "elvish"]

def common : List Named :=
  [⟨"help", some 'h', .switch .help⟩, ⟨"log-level", none, .setting .logLevel⟩]

def inputs : List Named :=
  [⟨"config", some 'c', .setting .config⟩, ⟨"charset", none, .setting .charset⟩,
   ⟨"eliminate-unused", some 'e', .switch .eliminateUnused⟩,
   ⟨"verbose", some 'v', .switch .verbose⟩]

/-- The parameters of a command, or of the program itself. -/
def parameters : Option Verb → List Named
  | none => ⟨"version", some 'V', .switch .version⟩ :: common
  | some .combine =>
    ⟨"output", some 'o', .setting .output⟩ :: ⟨"separator", some 's', .switch .separator⟩
      :: inputs ++ common
  | some .order => ⟨"json", none, .switch .json⟩ :: inputs ++ common
  | some .tree => ⟨"depth", none, .setting .depth⟩ :: inputs ++ common
  | some .completions => common

/-! ## Reading -/

inductive Stop where
  | misuse
  | help
  | version
deriving DecidableEq, Repr

structure Given where
  switches : List Switch := []
  settings : List (Setting × String) := []
  /-- The last one first. -/
  operands : List String := []
deriving DecidableEq, Repr

/-- A count below `2 ^ 64`. -/
def count? (text : String) : Option Nat :=
  let digits := match text.toList with
    | '+' :: rest => rest
    | text => text
  if digits.isEmpty || !digits.all Char.isDigit then none
  else
    let n := digits.foldl (fun n d => 10 * n + (d.toNat - '0'.toNat)) 0
    if n < Nat.pow 2 64 then some n else none

def Setting.accepts : Setting → String → Bool
  | output, value | config, value => value ≠ ""
  | depth, value => (count? value).isSome
  | logLevel, _ | charset, _ => true

namespace Given

def addSwitch (g : Given) (s : Switch) : Except Stop Given :=
  if s = .help then .error .help
  else if s = .version then .error .version
  else if s ∈ g.switches then .error .misuse
  else .ok { g with switches := s :: g.switches }

def setting? (g : Given) (s : Setting) : Option String := g.settings.lookup s

def addSetting (g : Given) (s : Setting) (value : String) : Except Stop Given :=
  if (g.setting? s).isSome || !s.accepts value then .error .misuse
  else .ok { g with settings := (s, value) :: g.settings }

/-- Completions take one shell, other commands any files. -/
def addOperand (verb : Verb) (g : Given) (operand : String) : Except Stop Given :=
  let accepted := match verb with
    | .completions => g.operands.isEmpty && shells.contains operand
    | _ => operand ≠ ""
  if accepted then .ok { g with operands := operand :: g.operands } else .error .misuse

/-- What has been given, and the setting that still wants its value. -/
abbrev Pending := Given × Option Setting

/-- A parameter by its name, with what stands behind an equals sign. -/
def addNamed (ps : List Named) (g : Given) (name : String) (value : Option String) :
    Except Stop Pending :=
  match ps.find? (·.name = name), value with
  | some ⟨_, _, .switch s⟩, none => (g.addSwitch s).map (·, none)
  | some ⟨_, _, .setting s⟩, some value => (g.addSetting s value).map (·, none)
  | some ⟨_, _, .setting s⟩, none => .ok (g, some s)
  | _, _ => .error .misuse

/-- Parameters by their letters; what follows a setting is its value. -/
def addLetters (ps : List Named) (g : Given) : List Char → Except Stop Pending
  | [] => .ok (g, none)
  | c :: rest =>
    match ps.find? (·.letter = some c) with
    | some ⟨_, _, .switch s⟩ => do addLetters ps (← g.addSwitch s) rest
    | some ⟨_, _, .setting s⟩ =>
      match rest with
      | [] => .ok (g, some s)
      | '=' :: value | value => (g.addSetting s (String.ofList value)).map (·, none)
    | none => .error .misuse

end Given

/-- Whether an argument is written like a parameter. -/
def isMarked (arg : String) : Bool := arg.toList.head? = some '-' && arg ≠ "-"

/-- Reads an argument that is written like a parameter. -/
def addMarked (ps : List Named) (g : Given) (arg : String) : Except Stop Given.Pending :=
  match arg.toList with
  | '-' :: '-' :: text =>
    let name := text.takeWhile (· ≠ '=')
    let value := (text.drop name.length).tail?.map String.ofList
    g.addNamed ps (String.ofList name) value
  | text => g.addLetters ps (text.drop 1)

/-- Reads the arguments of a command; all that follow a double dash are operands. -/
def scan (verb : Verb) (g : Given) (wanting : Option Setting) (bare : Bool) :
    List String → Except Stop Given
  | [] => if wanting.isSome then .error .misuse else .ok g
  | arg :: rest =>
    match wanting with
    | some s =>
      if isMarked arg then .error .misuse
      else do scan verb (← g.addSetting s arg) none false rest
    | none =>
      if bare || !isMarked arg then do scan verb (← g.addOperand verb arg) none bare rest
      else if arg = "--" then scan verb g none true rest
      else do
        let (g, wanting) ← addMarked (parameters verb) g arg
        scan verb g wanting false rest

def isTopic : List String → Bool
  | [] => true
  | [topic] => topic = "help" || (verbs.lookup topic).isSome
  | _ => false

/-- Reads up to the command: what stands in front of it, the command and its arguments. -/
def scanTop (g : Given) (wanting : Option Setting) :
    List String → Except Stop (Given × Verb × List String)
  | [] => .error .misuse
  | arg :: rest =>
    match wanting with
    | some s =>
      if isMarked arg then .error .misuse else do scanTop (← g.addSetting s arg) none rest
    | none =>
      match verbs.lookup arg with
      | some verb => .ok (g, verb, rest)
      | none =>
        if arg = "help" then .error (if isTopic rest then .help else .misuse)
        else if isMarked arg then do
          let (g, wanting) ← addMarked (parameters none) g arg
          scanTop g wanting rest
        else .error .misuse

/-! ## Requests -/

/-- The inputs as given; a project file that the environment names counts where none is given,
and no project file may have an empty name. -/
def Given.inputs (g : Given) (environment : Option String) : Except Stop InputArguments := do
  let config := (g.setting? .config).or environment
  if config = some "" then throw .misuse
  return {
    files := g.operands.reverse
    config
    charset := g.setting? .charset
    eliminateUnused := g.switches.contains .eliminateUnused
    verbose := g.switches.contains .verbose }

def request (environment : Option String) (args : List String) : Except Stop Request := do
  let (top, verb, rest) ← scanTop {} none args
  let g ← scan verb {} none false rest
  let logLevel := ((g.setting? .logLevel).or (top.setting? .logLevel)).getD "warn"
  let task ← match verb with
    | .combine => do
      let inputs ← g.inputs environment
      pure (.combine inputs (g.setting? .output) (g.switches.contains .separator))
    | .order => do
      let inputs ← g.inputs environment
      pure (.order inputs (g.switches.contains .json))
    | .tree => do
      let inputs ← g.inputs environment
      pure (.tree inputs ((g.setting? .depth).bind count?))
    | .completions =>
      match g.operands with
      | shell :: _ => pure (.completions shell)
      | [] => throw .misuse
  return { logLevel, task }

/-! ## Answers -/

def versionText : String := "file-combiner 0.1.0\n"

def usage : String :=
  "Usage: file-combiner [--log-level LEVEL] <combine|order|tree|completions|help> [ARGUMENTS]\n"

def Stop.answer : Stop → Answer
  | misuse => { code := 2, report := usage }
  | help => { code := 0, output := printed usage }
  | version => { code := 0, output := printed versionText }

/-- Reads by these rules, and has a script for no shell. -/
instance : Reader where
  read environment args := (request environment args).mapError Stop.answer
  completions _ := []

end SourceBundle.Command
