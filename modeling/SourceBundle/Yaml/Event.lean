import SourceBundle.Yaml.Lexer

/-! # From tokens to events

Events tell the structure of a document in the order of its text. The grammar is a stack of what
is still expected. A node that is left out is an empty plain scalar.
-/
namespace SourceBundle.Yaml

structure Scalar where
  value : List Char := []
  style : Style := .plain
  tag : Option (List Char) := none
deriving DecidableEq, Repr, Inhabited

inductive Event where
  | alias (name : List Char)
  | scalar (scalar : Scalar) (anchor : Option (List Char))
  | sequence (anchor : Option (List Char))
  | sequenceEnd
  | mapping (anchor : Option (List Char))
  | mappingEnd
deriving DecidableEq, Repr

abbrev Marked := Event × Mark

namespace Grammar

inductive Expected where
  /-- The node of a document that was started by a mark. -/
  | content
  | node
  | blockItem
  /-- An item of a sequence that is not indented below its key. -/
  | item
  | blockKey
  | blockValue
  | flowItem (first : Bool)
  /-- The parts of a mapping that is one pair in a flow sequence. -/
  | pairKey
  | pairValue
  | pairEnd
  | flowKey (first : Bool)
  | flowValue
  /-- The value of a key that was not marked. -/
  | noValue
deriving DecidableEq, Repr

/-- What the tag handles of a document stand for. -/
abbrev Handles := List (List Char × List Char)

def defaultHandles : Handles := [("!".toList, "!".toList), ("!!".toList, "tag:yaml.org,2002:".toList)]

abbrev Move := Marked × List Expected × List Token

def missing (mark : Mark) (expected : List Expected) (ts : List Token) : Option Move :=
  some ((.scalar {} none, mark), expected, ts)

structure Properties where
  anchor : Option (List Char) := none
  tag : Option (List Char × List Char) := none

/-- An anchor and a tag, in either order, in front of a node. -/
def properties : List Token → Properties × List Token
  | ⟨.anchor a, _, _⟩ :: ⟨.tag h s, _, _⟩ :: ts | ⟨.tag h s, _, _⟩ :: ⟨.anchor a, _, _⟩ :: ts =>
    (⟨some a, some (h, s)⟩, ts)
  | ⟨.anchor a, _, _⟩ :: ts => (⟨some a, none⟩, ts)
  | ⟨.tag h s, _, _⟩ :: ts => (⟨none, some (h, s)⟩, ts)
  | ts => ({}, ts)

/-- The tag that a handle and a suffix stand for; a tag without handle stands as it is. -/
def expand (handles : Handles) (handle suffix : List Char) : Option (List Char) :=
  if handle.isEmpty then some suffix else (handles.lookup handle).map (· ++ suffix)

/-- Reads a node, after which `next` is expected. A block starts only where `block` holds, and a
sequence without indentation only where `indentless` holds. -/
def node (handles : Handles) (block indentless : Bool) (next : List Expected)
    (ts : List Token) : Option Move := do
  let first ← ts.head?
  match ts with
  | ⟨.alias name, mark, _⟩ :: ts => return ((.alias name, mark), next, ts)
  | _ =>
    let (p, rest) := properties ts
    let tag ← match p.tag with
      | none => some none
      | some (handle, suffix) => (expand handles handle suffix).map some
    let sequence := (Event.sequence p.anchor, first.start)
    let mapping := (Event.mapping p.anchor, first.start)
    match rest with
    | [] => none
    | token :: after =>
      match token.lexeme with
      | .blockEntry =>
        if indentless then return (sequence, .item :: next, rest)
        else if p.anchor.isSome || tag.isSome then
          return ((.scalar { tag } p.anchor, first.start), next, rest)
        else none
      | .scalar value style =>
        let tag := if tag = some ['!'] then none else tag
        return ((.scalar ⟨value, style, tag⟩ p.anchor, first.start), next, after)
      | .flowSequence => return (sequence, .flowItem true :: next, after)
      | .flowMapping => return (mapping, .flowKey true :: next, after)
      | lexeme =>
        if block ∧ lexeme = .blockSequence then return (sequence, .blockItem :: next, after)
        else if block ∧ lexeme = .blockMapping then return (mapping, .blockKey :: next, after)
        else if p.anchor.isSome || tag.isSome then
          return ((.scalar { tag } p.anchor, first.start), next, rest)
        else none

def starts (ts : List Token) (p : Lexeme → Bool) : Bool := ts.head?.any fun t => p t.lexeme

/-- A node, unless one of these tokens shows that it is left out. -/
def nodeUnless (handles : Handles) (block indentless : Bool) (ends : Lexeme → Bool) (mark : Mark)
    (next : List Expected) (ts : List Token) : Option Move :=
  if starts ts ends then missing mark next ts else node handles block indentless next ts

def isAny (lexemes : List Lexeme) (l : Lexeme) : Bool := lexemes.contains l

/-- Goes on in a flow sequence behind its comma. -/
def flowItem (handles : Handles) (next : List Expected) : List Token → Option Move
  | ⟨.key, mark, _⟩ :: ts =>
    some ((.mapping none, mark), .pairKey :: .flowItem false :: next, ts)
  | ⟨.flowSequenceEnd, mark, _⟩ :: ts => some ((.sequenceEnd, mark), next, ts)
  | ts => node handles false false (.flowItem false :: next) ts

/-- Goes on in a flow mapping behind its comma. -/
def flowKey (handles : Handles) (next : List Expected) : List Token → Option Move
  | ⟨.key, _, _⟩ :: ts => do
    let token ← ts.head?
    nodeUnless handles false false (isAny [.value, .flowEntry, .flowMappingEnd]) token.start
      (.flowValue :: next) ts
  | ⟨.flowMappingEnd, mark, _⟩ :: ts => some ((.mappingEnd, mark), next, ts)
  | ts => node handles false false (.noValue :: next) ts

/-- The next event, where `expected` is expected and `next` after it. -/
def step (handles : Handles) (expected : Expected) (next : List Expected) (ts : List Token) :
    Option Move := do
  let token ← ts.head?
  let rest := ts.drop 1
  match expected, token.lexeme with
  | .content, _ => nodeUnless handles true false Lexeme.endsDocument token.start next ts
  | .node, _ => node handles true false next ts
  | .blockItem, .blockEntry =>
    nodeUnless handles true false (isAny [.blockEntry, .blockEnd]) token.stop
      (.blockItem :: next) rest
  | .blockItem, .blockEnd => return ((.sequenceEnd, token.start), next, rest)
  | .blockItem, _ => none
  | .item, .blockEntry =>
    nodeUnless handles true false (isAny [.blockEntry, .key, .value, .blockEnd]) token.stop
      (.item :: next) rest
  | .item, _ => return ((.sequenceEnd, token.start), next, ts)
  | .blockKey, .key =>
    nodeUnless handles true true (isAny [.key, .value, .blockEnd]) token.stop
      (.blockValue :: next) rest
  | .blockKey, .blockEnd => return ((.mappingEnd, token.start), next, rest)
  | .blockKey, _ => none
  | .blockValue, .value =>
    nodeUnless handles true true (isAny [.key, .value, .blockEnd]) token.stop
      (.blockKey :: next) rest
  | .blockValue, _ => missing token.start (.blockKey :: next) ts
  | .flowItem true, _ => flowItem handles next ts
  | .flowItem false, .flowEntry => flowItem handles next rest
  | .flowItem false, .flowSequenceEnd => return ((.sequenceEnd, token.start), next, rest)
  | .flowItem false, _ => none
  | .pairKey, lexeme =>
    if isAny [.value, .flowEntry, .flowSequenceEnd] lexeme then
      missing token.stop (.pairValue :: next) rest
    else node handles false false (.pairValue :: next) ts
  | .pairValue, .value =>
    let following ← rest.head?
    nodeUnless handles false false (isAny [.flowEntry, .flowSequenceEnd]) following.start
      (.pairEnd :: next) rest
  | .pairValue, _ => missing token.start (.pairEnd :: next) ts
  | .pairEnd, _ => return ((.mappingEnd, token.start), next, ts)
  | .flowKey true, _ => flowKey handles next ts
  | .flowKey false, .flowEntry => flowKey handles next rest
  | .flowKey false, .flowMappingEnd => return ((.mappingEnd, token.start), next, rest)
  | .flowKey false, _ => none
  | .flowValue, .value =>
    let following ← rest.head?
    nodeUnless handles false false (isAny [.flowEntry, .flowMappingEnd]) following.start
      (.flowKey false :: next) rest
  | .flowValue, _ | .noValue, _ => missing token.start (.flowKey false :: next) ts

/-- The events until nothing is expected, with the tokens left; without these where the grammar
or the text was violated. -/
def run (handles : Handles) : Nat → List Expected → List Token → List Marked × Option (List Token)
  | _, [], ts => ([], some ts)
  | 0, _, _ => ([], none)
  | fuel + 1, expected :: next, ts =>
    match step handles expected next ts with
    | none => ([], none)
    | some (event, next, ts) =>
      let (events, left) := run handles fuel next ts
      (event :: events, left)

/-- The directives in front of a document: each may be given once, and a handle stands for
nothing else after that. -/
def directives (versioned : Bool) (handles : Handles) :
    List Token → Option (Handles × List Token)
  | ⟨.version major minor, _, _⟩ :: ts =>
    if versioned || major ≠ 1 || !(minor = 1 || minor = 2) then none
    else directives true handles ts
  | ⟨.handle name expansion, _, _⟩ :: ts =>
    if handles.any (·.1 = name) then none
    else directives versioned (handles ++ [(name, expansion)]) ts
  | ts => some (handles, ts)

/-- Whether nothing but the end of the stream follows a document. -/
def ends (ts : List Token) : Bool :=
  match ts.dropWhile (·.lexeme = .documentEnd) with
  | ⟨.streamEnd, _, _⟩ :: _ => true
  | _ => false

end Grammar

end SourceBundle.Yaml
