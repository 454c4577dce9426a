import SnippetAudit.Yaml.Goal
import SnippetAudit.Yaml.Resolution

/-!
# Documents

A text holds one document: the events of its root, in which each alias is replaced by the place of
the node that it stands for. The value of the document is read off these events; a node that
aliases stand for is read again at each of them.

Three limits keep a small text from standing for a huge or endless value: collections nest at most
128 deep, an alias counts as deep as the place where it stands, and aliases are followed at most a
hundred times as often as the document has events.

Results:
* `ofText_nil`: the empty text is a document without a root.
* `value_nil`: a document without a root is null.
-/

namespace SnippetAudit.Yaml

/-! ## Aliases -/

/-- The anchors met before some place: each name with its number, the latest first, and for each number
    the place of the node that had it last. -/
structure Anchors where
  numbers : List (List Char × Nat)
  places : List (Nat × Nat)
  deriving Repr

namespace Anchors

/-- No anchors. -/
def none : Anchors := ⟨[], []⟩

/-- Adds an anchor at a place. Its number is the number of names before it. -/
def insert (a : Anchors) (name : List Char) (place : Nat) : Anchors :=
  let number := (a.numbers.map (·.1)).eraseDups.length
  ⟨(name, number) :: a.numbers, (number, place) :: a.places⟩

end Anchors

/-- A node or the end of a collection, with aliases resolved to the places of other nodes. -/
inductive Part.Kind where
  | link (place : Nat)
  | scalar (tag : Option (List UInt8)) (text : List Char) (plain : Bool)
  | sequenceStart (tag : Option (List UInt8))
  | sequenceEnd
  | mappingStart (tag : Option (List UInt8))
  | mappingEnd
  deriving DecidableEq, Repr

/-- A part of a document and the mark where it starts. -/
structure Part where
  kind : Part.Kind
  mark : Mark
  deriving DecidableEq, Repr

/-- The part of an event, given the places of numbers and the number of each name. A name without a
    number has no part, and neither has the end of a document. -/
def Part.ofEvent? (places : List (Nat × Nat)) (numbers : List (List Char × Nat)) (e : Event) :
    Option Part :=
  let kind : Option Part.Kind := match e.kind with
    | .alias name => do
      let number ← numbers.lookup name
      let place ← places.lookup number
      return .link place
    | .scalar p text plain => some (.scalar p.tag text plain)
    | .sequenceStart p => some (.sequenceStart p.tag)
    | .sequenceEnd => some .sequenceEnd
    | .mappingStart p => some (.mappingStart p.tag)
    | .mappingEnd => some .mappingEnd
    | .documentEnd => none
  kind.map (⟨·, e.mark⟩)

/-- The anchors of a list of events up to the first alias of an unknown name, with the events up to there
    and the numbers that each of them sees. -/
def Anchors.collect : Nat → Anchors → List Event →
    Anchors × List (List (List Char × Nat) × Event) × Option Fault
  | _, a, [] => (a, [], .none)
  | place, a, e :: rest =>
    let unknown := match e.kind with
      | .alias name => (a.numbers.lookup name).isNone
      | _ => false
    if unknown then (a, [], some .unknownAnchor)
    else
      let after := match e.anchor? with
        | some name => a.insert name place
        | .none => a
      let (all, seen, fault) := collect (place + 1) after rest
      (all, (a.numbers, e) :: seen, fault)

/-! ## Documents -/

/-- The parts of a document, and why the text is not one complete document. -/
structure Document where
  parts : List Part
  fault : Option Fault
  deriving DecidableEq, Repr

namespace Document

/-- The first document of a list of events, which has to be the only one. -/
def ofEvents (events : List Event) (fault : Option Fault) : Document :=
  let body := events.takeWhile (·.kind ≠ .documentEnd)
  let fault := match events.drop body.length with
    | [] => fault
    | _ :: more => if more.isEmpty && fault.isNone then none else some .manyDocuments
  let (anchors, seen, unknown) := Anchors.collect 0 .none body
  ⟨seen.filterMap fun (numbers, e) => Part.ofEvent? anchors.places numbers e, unknown.or fault⟩

/-- The document of a text. -/
def ofText (text : List Char) : Document :=
  let (events, fault) := Event.ofText text
  ofEvents events fault

end Document

/-! ## Values -/

/-- What is left to read, and how many aliases were followed. -/
structure Reader where
  rest : List Part
  follows : Nat

/-- Reading may move on in the document, or find it at fault. -/
abbrev Read := StateT Reader (Except Fault)

namespace Read

/-- Takes the next part. -/
def next : Read Part := do
  let r ← get
  match r.rest with
  | [] => throw .unfinished
  | part :: rest =>
    set { r with rest }
    return part

/-- Whether the next part satisfies a test. -/
def nextIs (test : Part.Kind → Bool) : Read Bool := do
  return (← get).rest.head?.any fun part => test part.kind

/-- Reads the items of a sequence, of which there are at most `fuel`, and its end. -/
def items (node : Read Value) : Nat → Read (List Value)
  | 0 => throw .unfinished
  | fuel + 1 => do
    if ← nextIs (· == .sequenceEnd) then
      let _ ← next
      return []
    let first ← node
    return first :: (← items node fuel)

/-- Reads the entries of a mapping, of which there are at most `fuel`, and its end. No key equals another
    or one that was `seen` before. -/
def entries (member : Read Value) : Nat → List Value → Read Entries
  | 0, _ => throw .unfinished
  | fuel + 1, seen => do
    if ← nextIs (· == .mappingEnd) then
      let _ ← next
      return []
    let k ← member
    if seen.any (·.same k) then throw .duplicateKey
    let v ← member
    return (k, v) :: (← entries member fuel (k :: seen))

/-- The value under a local tag, or the value itself. -/
def tagWith (name : Option String) (v : Value) : Value :=
  match name with
  | some name => .tagged name v
  | none => v

/-- Follows an alias to a place of the document, which has `size` parts. -/
def follow (parts : List Part) (size : Nat) (place : Nat) (node : Read Value) : Read Value := do
  let r ← get
  if 100 * size < r.follows + 1 then throw .manyAliases
  set ({ rest := parts.drop place, follows := r.follows + 1 } : Reader)
  let v ← node
  modify fun after => { after with rest := r.rest }
  return v

/-- Reads a node: an alias, or a node of its own by `content`. -/
def node (parts : List Part) (size : Nat) (content : Read Value) : Read Value := do
  match (← get).rest with
  | ⟨.link place, _⟩ :: _ =>
    let _ ← next
    follow parts size place content
  | _ => content

/-- Reads a node that is no alias, in which collections nest at most `depth` deep. -/
def content (parts : List Part) (size : Nat) (depth : Nat) : Read Value := do
  let part ← next
  match part.kind with
  | .scalar tag text plain => return tagWith (tag.bind localTag?) (← Value.ofScalar tag text plain)
  | .sequenceStart tag =>
    match depth with
    | 0 => throw .depth
    | depth + 1 =>
      let item := node parts size (content parts size depth)
      return tagWith (tag.bind localTag?) (.sequence (← items item (size + 1)))
  | .mappingStart tag =>
    match depth with
    | 0 => throw .depth
    | depth + 1 =>
      let member := node parts size (content parts size depth)
      return tagWith (tag.bind localTag?) (.mapping (← entries member (size + 1) []))
  | .link _ | .sequenceEnd | .mappingEnd => throw .unexpected

end Read

namespace Document

/-- How deep collections nest at most. -/
def maxDepth : Nat := 128

/-- The value of a document. A document without a root is null. -/
def value (d : Document) : Except Fault Value :=
  if d.parts.isEmpty && d.fault.isNone then .ok .null
  else do
    let size := d.parts.length
    let (v, _) ← (Read.node d.parts size (Read.content d.parts size maxDepth)).run ⟨d.parts, 0⟩
    match d.fault with
    | some fault => throw fault
    | none => return v

end Document

/-- The value that a text stands for. -/
def Value.ofText (text : List Char) : Except Fault Value :=
  (Document.ofText text).value

/-! ## Lemmas -/

theorem Document.ofText_nil : Document.ofText [] = ⟨[], none⟩ := by
  decide +kernel

theorem Document.value_nil : Document.value ⟨[], none⟩ = .ok .null := rfl

end SnippetAudit.Yaml
