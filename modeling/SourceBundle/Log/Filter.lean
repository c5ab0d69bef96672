import SourceBundle.Log
import SourceBundle.Text.Blank
import SourceBundle.Text.Search

/-! # Log filters

A filter is written as rules between commas: a level alone, a target alone, or `target=level`.
The rule with the longest target that a line's origin starts with decides. A rule that cannot
be read is reported and left out; without any rule, errors alone pass.
-/
namespace SourceBundle.Log

structure Rule where
  /-- What the origin must start with; the empty rule holds for all. -/
  target : Option String
  /-- The highest rank that passes; nothing passes at 0. -/
  limit : Nat
deriving DecidableEq, Repr

structure Filter where
  /-- The shortest targets first. -/
  rules : List Rule
deriving DecidableEq, Repr

namespace Filter

def lower (text : List Char) : String := String.ofList (text.map Char.toLower)

/-- The rank of a level's name, in any case. -/
def rank? (text : List Char) : Option Nat :=
  [("off", 0), ("error", 1), ("warn", 2), ("info", 3), ("debug", 4), ("trace", 5)].lookup
    (lower text)

def highest : Nat := 5

def rule (text : List Char) : Except String Rule :=
  let wrong := fun (part : List Char) =>
    Except.error ("invalid logging spec '" ++ String.ofList part ++ "'")
  match Text.split '=' text with
  | [target] =>
    match rank? target with
    | some limit => .ok ⟨none, limit⟩
    | none => .ok ⟨some (String.ofList target), highest⟩
  | [target, level] =>
    let level := Text.trim level
    if level.isEmpty then .ok ⟨some (String.ofList target), highest⟩
    else match rank? level with
      | some limit => .ok ⟨some (String.ofList target), limit⟩
      | none => wrong level
  | _ => wrong text

/-- A rule for the same target takes the place of the earlier one. -/
def add (rules : List Rule) (rule : Rule) : List Rule :=
  if rules.any (·.target = rule.target) then
    rules.map fun r => if r.target = rule.target then rule else r
  else rules ++ [rule]

def weight (rule : Rule) : Nat := rule.target.elim 0 String.utf8ByteSize

/-- Rules in the order in which they are tried from the end. -/
def ofRules (rules : List Rule) : Filter :=
  ⟨if rules.isEmpty then [⟨none, 1⟩] else rules.mergeSort fun a b => weight a ≤ weight b⟩

/-- The filter that a text describes, and the warnings about what could not be read. -/
def parse (text : String) : Filter × List String :=
  let read := ((Text.split ',' text.toList).map Text.trim).filter (!·.isEmpty) |>.map rule
  (ofRules ((read.filterMap Except.toOption).foldl add []),
    read.filterMap fun
      | .error reason => some reason
      | .ok _ => none)

def holds (rule : Rule) (target : String) : Bool :=
  rule.target.all fun name => Text.startsWith name.toList target.toList

def passes (f : Filter) (line : Line) : Bool :=
  match f.rules.reverse.find? (holds · line.origin.target) with
  | some rule => line.level.rank ≤ rule.limit
  | none => false

end Filter

end SourceBundle.Log
