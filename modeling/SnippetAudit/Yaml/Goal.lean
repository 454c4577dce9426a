import SnippetAudit.Text.Utf8
import SnippetAudit.Yaml.TokenQueue

/-!
# The grammar of documents

Events are the structure of a document as a flat list: scalars and aliases, and the start and the
end of each collection. Anchors and tags stand with the node that they belong to.

Events are read off tokens by a stack of goals: what the text has to go on with, the next
goal first. A step looks at one token. It may take the token, give an event, and replace
the goal on top by others.

A node may be left out where a goal `slot` stands: before the tokens that end it, an empty
scalar takes its place.

`Event.ofTokens` lists the events of all documents of a text, and the fault that ends them
early.

Results:
* `run_nil`: where the tokens run out, the goals that are left cannot be met.
* `resolveTag_of_handle_nil`: a tag without a handle stands for itself.
-/

namespace SnippetAudit.Yaml

open Text

/-! ## Events -/

/-- What may stand before a node: an anchor, and a tag with its handle resolved. -/
structure Properties where
  anchor : Option (List Char)
  tag : Option (List UInt8)
  deriving DecidableEq, Repr

/-- A node without anchor and tag. -/
def Properties.none : Properties := ⟨Option.none, Option.none⟩

/-- The kinds of events. -/
inductive Event.Kind where
  | alias (name : List Char)
  | scalar (properties : Properties) (text : List Char) (plain : Bool)
  | sequenceStart (properties : Properties)
  | sequenceEnd
  | mappingStart (properties : Properties)
  | mappingEnd
  | documentEnd
  deriving DecidableEq, Repr

/-- An event and the mark where it starts. -/
structure Event where
  kind : Event.Kind
  mark : Mark
  deriving DecidableEq, Repr

/-- The anchor of the node that an event starts. -/
def Event.anchor? (e : Event) : Option (List Char) :=
  match e.kind with
  | .scalar p _ _ | .sequenceStart p | .mappingStart p => p.anchor
  | .alias _ | .sequenceEnd | .mappingEnd | .documentEnd => none

/-! ## Goals -/

/-- What surrounds a node: a flow collection, a block, or a key or value of a block mapping, which may
    be a sequence that is not indented. -/
inductive Surroundings where
  | flow
  | block
  | blockMember
  deriving DecidableEq, Repr

/-- The places where a node may be left out. -/
inductive Slot where
  | blockItem
  | bareItem
  | blockMember
  | pairValue
  | flowKey
  | flowValue
  deriving DecidableEq, Repr

namespace Slot

/-- Whether a token ends a slot in which no node stands. -/
def endsAt : Slot → Token.Kind → Bool
  | .blockItem, .entry | .blockItem, .blockEnd => true
  | .bareItem, .entry | .bareItem, .key | .bareItem, .value | .bareItem, .blockEnd => true
  | .blockMember, .key | .blockMember, .value | .blockMember, .blockEnd => true
  | .pairValue, .separator | .pairValue, .closeSequence => true
  | .flowKey, .value | .flowKey, .separator | .flowKey, .closeMapping => true
  | .flowValue, .separator | .flowValue, .closeMapping => true
  | _, _ => false

/-- What surrounds the node of a slot. -/
def surroundings : Slot → Surroundings
  | .blockItem | .bareItem => .block
  | .blockMember => .blockMember
  | .pairValue | .flowKey | .flowValue => .flow

end Slot

/-- The properties of a node as far as they are read, and the mark where they start. -/
structure PropertyWords where
  anchor : Option (List Char)
  tag : Option TagWord
  mark : Option Mark
  deriving DecidableEq, Repr

/-- What a text may have to go on with. -/
inductive Goal where
  /-- A document, or the end of the text. The first document needs no start marker. -/
  | document (first : Bool)
  /-- Further directives, or the start marker that has to follow them. -/
  | directives
  /-- The root of a document, which may be left out behind a start marker. -/
  | root
  /-- The end of a document. -/
  | documentEnd
  /-- A node, behind its properties that are read already. -/
  | node (around : Surroundings) (words : PropertyWords)
  /-- A node that may be left out; the empty scalar stands at a mark, or where the next token starts. -/
  | slot (slot : Slot) (mark : Option Mark)
  /-- Entries of a block sequence. -/
  | blockItems
  /-- Entries of a sequence that is not indented. -/
  | bareItems
  /-- A key of a block mapping, or its end. -/
  | blockKey
  /-- The value of a key of a block mapping. -/
  | blockValue
  /-- Entries of a flow sequence; all but the first follow a comma. -/
  | flowItems (first : Bool)
  /-- The key of a pair in a flow sequence. -/
  | pairKey
  /-- The value of a pair in a flow sequence. -/
  | pairValue
  /-- The end of a pair in a flow sequence. -/
  | pairEnd
  /-- A key of a flow mapping, or its end; all but the first follow a comma. -/
  | flowKey (first : Bool)
  /-- The value of a key of a flow mapping. -/
  | flowValue
  /-- The missing value of an entry of a flow mapping that has no key token. -/
  | noValue
  deriving DecidableEq, Repr

/-- A node of which nothing is read. -/
def Goal.anyNode (around : Surroundings) : Goal := .node around ⟨none, none, none⟩

/-- The goals that are left, and the declarations of the document at hand. -/
structure GoalStack where
  goals : List Goal
  versioned : Bool
  handles : List (List Char × List UInt8)
  deriving Repr

/-- The outcome of a step: the event that it gives, whether it takes the token, and what is left. -/
structure Move where
  event : Option Event
  takes : Bool
  left : GoalStack
  deriving Repr

namespace GoalStack

/-- The start of a text. -/
def start : GoalStack := ⟨[.document true], false, []⟩

/-- Replaces the goal on top. -/
def goOn (p : GoalStack) (goals : List Goal) : GoalStack := { p with goals := goals ++ p.goals.tail }

/-- Takes a token. -/
def take (p : GoalStack) (goals : List Goal) : Move := ⟨none, true, p.goOn goals⟩

/-- Takes a token for an event. -/
def takeEvent (p : GoalStack) (kind : Event.Kind) (mark : Mark) (goals : List Goal) : Move :=
  ⟨some ⟨kind, mark⟩, true, p.goOn goals⟩

/-- Leaves a token to other goals. -/
def leave (p : GoalStack) (goals : List Goal) : Move := ⟨none, false, p.goOn goals⟩

/-- Gives an event and leaves the token. -/
def leaveEvent (p : GoalStack) (kind : Event.Kind) (mark : Mark) (goals : List Goal) : Move :=
  ⟨some ⟨kind, mark⟩, false, p.goOn goals⟩

/-- An empty scalar. -/
def emptyScalar (properties : Properties) : Event.Kind := .scalar properties [] true

/-! ## Declarations -/

/-- Notes a version. There is one at most, and it is 1.1 or 1.2. -/
def declareVersion (p : GoalStack) (major minor : Nat) : Except Fault GoalStack :=
  if p.versioned || major != 1 || !(minor == 1 || minor == 2) then .error .directive
  else .ok { p with versioned := true }

/-- Notes what a tag handle stands for. Each is declared once at most. -/
def declareHandle (p : GoalStack) (handle : List Char) (lead : List UInt8) : Except Fault GoalStack :=
  if p.handles.any (·.1 == handle) then .error .directive
  else .ok { p with handles := p.handles ++ [(handle, lead)] }

/-- The handles that need no declaration. -/
def commonHandles : List (List Char × List UInt8) :=
  [(['!'], Utf8.encode ['!']), (['!', '!'], Utf8.encode "tag:yaml.org,2002:".toList)]

/-- The tag that a word stands for. -/
def resolveTag (p : GoalStack) (word : TagWord) : Except Fault (List UInt8) :=
  if word.handle.isEmpty then .ok word.suffix
  else
    match (p.handles ++ commonHandles).lookup word.handle with
    | some lead => .ok (lead ++ word.suffix)
    | none => .error .tagHandle

/-! ## Steps -/

/-- A step of a document that is not begun. -/
def stepDocument (p : GoalStack) (first : Bool) (token : Token) : Except Fault Move :=
  match first, token.kind with
  | _, .streamEnd => .ok (p.take [])
  | _, .version .. | _, .tagHandle .. | _, .documentStart => .ok (p.leave [.directives])
  | false, .documentEnd => .ok (p.take [.document false])
  | true, _ => .ok (p.leave [.anyNode .block, .documentEnd])
  | false, _ => .error .unexpected

/-- A step of the directives of a document. -/
def stepDirectives (p : GoalStack) (token : Token) : Except Fault Move :=
  match token.kind with
  | .version major minor => (p.declareVersion major minor).map (·.take [.directives])
  | .tagHandle handle lead => (p.declareHandle handle lead).map (·.take [.directives])
  | .documentStart => .ok (p.take [.root, .documentEnd])
  | _ => .error .unexpected

/-- A step of the root behind a start marker. -/
def stepRoot (p : GoalStack) (token : Token) : Move :=
  match token.kind with
  | .version .. | .tagHandle .. | .documentStart | .documentEnd | .streamEnd =>
    p.leaveEvent (emptyScalar .none) token.start []
  | _ => p.leave [.anyNode .block]

/-- A step at the end of a document. Its declarations end with it. -/
def stepDocumentEnd (p : GoalStack) (token : Token) : Move :=
  let p := { p with versioned := false, handles := [] }
  match token.kind with
  | .documentEnd => p.takeEvent .documentEnd token.start [.document false]
  | _ => p.leaveEvent .documentEnd token.start [.document false]

/-- A step of a node whose properties are read. -/
def stepContent (p : GoalStack) (around : Surroundings) (properties : Properties) (mark : Mark)
    (token : Token) : Except Fault Move :=
  match token.kind with
  | .entry =>
    if around = .blockMember then .ok (p.leaveEvent (.sequenceStart properties) mark [.bareItems])
    else stepMissing
  | .scalar text plain => .ok (p.takeEvent (.scalar properties text plain) mark [])
  | .openSequence => .ok (p.takeEvent (.sequenceStart properties) mark [.flowItems true])
  | .openMapping => .ok (p.takeEvent (.mappingStart properties) mark [.flowKey true])
  | .blockSequence =>
    if around ≠ .flow then .ok (p.takeEvent (.sequenceStart properties) mark [.blockItems])
    else stepMissing
  | .blockMapping =>
    if around ≠ .flow then .ok (p.takeEvent (.mappingStart properties) mark [.blockKey])
    else stepMissing
  | _ => stepMissing
where
  /-- Properties with no node behind them belong to an empty scalar. -/
  stepMissing : Except Fault Move :=
    if properties = .none then .error .unexpected
    else .ok (p.leaveEvent (emptyScalar properties) mark [])

/-- A step of a node: an alias, one more property, or what stands behind the properties. -/
def stepNode (p : GoalStack) (around : Surroundings) (words : PropertyWords) (token : Token) :
    Except Fault Move :=
  let mark := words.mark.getD token.start
  match token.kind, words.anchor, words.tag with
  | .alias name, none, none => .ok (p.takeEvent (.alias name) mark [])
  | .anchor name, none, tag => .ok (p.take [.node around ⟨some name, tag, some mark⟩])
  | .tag word, anchor, none => .ok (p.take [.node around ⟨anchor, some word, some mark⟩])
  | _, anchor, tag => do
    let tag ← tag.mapM p.resolveTag
    p.stepContent around ⟨anchor, tag⟩ mark token

/-- A step of a node that may be left out. -/
def stepSlot (p : GoalStack) (slot : Slot) (mark : Option Mark) (token : Token) : Move :=
  if slot.endsAt token.kind then
    p.leaveEvent (emptyScalar .none) (mark.getD token.start) []
  else p.leave [.anyNode slot.surroundings]

/-- A step of the entries of a block sequence. -/
def stepBlockItems (p : GoalStack) (token : Token) : Except Fault Move :=
  match token.kind with
  | .entry => .ok (p.take [.slot .blockItem (some token.stop), .blockItems])
  | .blockEnd => .ok (p.takeEvent .sequenceEnd token.start [])
  | _ => .error .unexpected

/-- A step of the entries of a sequence that is not indented. What is no entry ends it. -/
def stepBareItems (p : GoalStack) (token : Token) : Move :=
  match token.kind with
  | .entry => p.take [.slot .bareItem (some token.stop), .bareItems]
  | _ => p.leaveEvent .sequenceEnd token.start []

/-- A step of a block mapping before a key. -/
def stepBlockKey (p : GoalStack) (token : Token) : Except Fault Move :=
  match token.kind with
  | .key => .ok (p.take [.slot .blockMember (some token.stop), .blockValue])
  | .blockEnd => .ok (p.takeEvent .mappingEnd token.start [])
  | _ => .error .unexpected

/-- A step of a block mapping behind a key. -/
def stepBlockValue (p : GoalStack) (token : Token) : Move :=
  match token.kind with
  | .value => p.take [.slot .blockMember (some token.stop), .blockKey]
  | _ => p.leaveEvent (emptyScalar .none) token.start [.blockKey]

/-- A step of the entries of a flow sequence. A key token starts a mapping of one pair. -/
def stepFlowItems (p : GoalStack) (first : Bool) (token : Token) : Except Fault Move :=
  match first, token.kind with
  | _, .closeSequence => .ok (p.takeEvent .sequenceEnd token.start [])
  | true, .key =>
    .ok (p.takeEvent (.mappingStart .none) token.start [.pairKey, .pairValue, .pairEnd, .flowItems false])
  | true, _ => .ok (p.leave [.anyNode .flow, .flowItems false])
  | false, .separator => .ok (p.take [.flowItems true])
  | false, _ => .error .unexpected

/-- A step of the key of a pair. The token that stands in its place is taken with it. -/
def stepPairKey (p : GoalStack) (token : Token) : Move :=
  match token.kind with
  | .value | .separator | .closeSequence => p.takeEvent (emptyScalar .none) token.stop []
  | _ => p.leave [.anyNode .flow]

/-- A step of the value of a pair. -/
def stepPairValue (p : GoalStack) (token : Token) : Move :=
  match token.kind with
  | .value => p.take [.slot .pairValue none]
  | _ => p.leaveEvent (emptyScalar .none) token.start []

/-- A step of a flow mapping before a key. -/
def stepFlowKey (p : GoalStack) (first : Bool) (token : Token) : Except Fault Move :=
  match first, token.kind with
  | _, .closeMapping => .ok (p.takeEvent .mappingEnd token.start [])
  | true, .key => .ok (p.take [.slot .flowKey none, .flowValue, .flowKey false])
  | true, _ => .ok (p.leave [.anyNode .flow, .noValue, .flowKey false])
  | false, .separator => .ok (p.take [.flowKey true])
  | false, _ => .error .unexpected

/-- A step of a flow mapping behind a key. -/
def stepFlowValue (p : GoalStack) (token : Token) : Move :=
  match token.kind with
  | .value => p.take [.slot .flowValue none]
  | _ => p.leaveEvent (emptyScalar .none) token.start []

/-- A step of the goal on top. -/
def step (p : GoalStack) (goal : Goal) (token : Token) : Except Fault Move :=
  match goal with
  | .document first => p.stepDocument first token
  | .directives => p.stepDirectives token
  | .root => .ok (p.stepRoot token)
  | .documentEnd => .ok (p.stepDocumentEnd token)
  | .node around words => p.stepNode around words token
  | .slot slot mark => .ok (p.stepSlot slot mark token)
  | .blockItems => p.stepBlockItems token
  | .bareItems => .ok (p.stepBareItems token)
  | .blockKey => p.stepBlockKey token
  | .blockValue => .ok (p.stepBlockValue token)
  | .flowItems first => p.stepFlowItems first token
  | .pairKey => .ok (p.stepPairKey token)
  | .pairValue => .ok (p.stepPairValue token)
  | .pairEnd => .ok (p.leaveEvent .mappingEnd token.start [])
  | .flowKey first => p.stepFlowKey first token
  | .flowValue => .ok (p.stepFlowValue token)
  | .noValue => .ok (p.leaveEvent (emptyScalar .none) token.start [])

/-- Meets the goals of a stack in at most `fuel` steps. Where the tokens run out, the text is at
    fault. -/
def run (fault : Fault) : Nat → GoalStack → List Token → List Event × Option Fault
  | 0, _, _ => ([], some fault)
  | fuel + 1, p, tokens =>
    match p.goals, tokens with
    | [], _ => ([], none)
    | _ :: _, [] => ([], some fault)
    | goal :: _, token :: rest =>
      match p.step goal token with
      | .error fault => ([], some fault)
      | .ok move =>
        let (events, fault) := run fault fuel move.left (if move.takes then rest else token :: rest)
        (move.event.toList ++ events, fault)

/-! ## Lemmas -/

theorem resolveTag_of_handle_nil (p : GoalStack) (suffix : List UInt8) :
    p.resolveTag ⟨[], suffix⟩ = .ok suffix := by
  simp [resolveTag]

theorem run_nil (fault : Fault) (fuel : Nat) {p : GoalStack} (h : p.goals ≠ []) :
    run fault fuel p [] = ([], some fault) := by
  cases fuel with
  | zero => rfl
  | succ fuel =>
    obtain ⟨goals, versioned, handles⟩ := p
    cases goals with
    | nil => exact absurd rfl h
    | cons goal goals => rfl

end GoalStack

/-- The events of the tokens of a text, and the fault that ends them early. Each token is looked at a few
    times at most. -/
def Event.ofTokens (tokens : List Token) (fault : Option Fault) : List Event × Option Fault :=
  GoalStack.start.run (fault.getD .unfinished) (8 * (tokens.length + 2)) tokens

/-- The events of a text, and the fault that ends them early. -/
def Event.ofText (text : List Char) : List Event × Option Fault :=
  let (tokens, fault) := Token.ofText text
  Event.ofTokens tokens fault

end SnippetAudit.Yaml
