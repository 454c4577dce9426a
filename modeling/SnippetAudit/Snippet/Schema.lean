import SnippetAudit.Snippet.Violation
import SnippetAudit.Yaml.Document

/-!
# The snippet schema

A metadata document is checked field by field in a fixed order: title and
description, `schema.decision`, `policy`, `schema.parameters`. The first violation
ends the check, so a document that fails carries one violation. Tags on values are
looked through, and an optional field that is null counts as absent.

Each part of the schema has one function, from the value and its place to the typed
part or the violation. The text of a block is read as YAML first.

Results:
* `checkEach_nil`, `checkEach_cons`: a list is checked from its front.
* `ofText_eq_ok_iff`: metadata comes from a readable document that satisfies the schema.
-/

namespace SnippetAudit

open Yaml (Value Entries)

namespace Schema

/-- A part of a document as its typed form, or the first violation in it. -/
abbrev Checked := Except Violation

/-- The value that is there, or a violation. -/
def require {α : Type} (value : Option α) (place : Place) (fault : Fault) : Checked α :=
  match value with
  | some a => .ok a
  | none => .error ⟨place, fault⟩

/-- Checks a field that may be absent. -/
def optional {α : Type} (value : Option Value) (check : Value → Checked α) : Checked (Option α) :=
  match value with
  | none => .ok none
  | some v => (check v).map some

/-- Checks the items of a list in order, each with its index. -/
def checkEach {α : Type} (check : Nat → Value → Checked α) : Nat → List Value → Checked (List α)
  | _, [] => .ok []
  | i, v :: rest => do
    let first ← check i v
    let others ← checkEach check (i + 1) rest
    return first :: others

/-! ## Decision -/

/-- One switch of a toggle decision. -/
def checkToggleEntry (place : Place) (value : Value) : Checked Toggle := do
  let entry ← require value.asMapping? place .toggleNotMapping
  let key ← require ((entry.get? "key").bind Value.asString?) (place ++ [.field "key"])
    .toggleKeyNotString
  let on ← require ((entry.get? "value").bind Value.asBool?) (place ++ [.field "value"])
    (.toggleValueNotBool (.ofField (entry.get? "value")))
  return ⟨key, on⟩

/-- A toggle decision (`check_toggle`). A label that is not set counts as missing. -/
def checkToggle (place : Place) (entry : Entries) : Checked Decision := do
  let label ← require ((entry.get? "label").filter Value.isTruthy) place .labelMissing
  let label ← require label.asString? (place ++ [.field "label"]) .labelNotString
  let toggles ← require ((entry.get? "toggles").bind Value.asSequence?) (place ++ [.field "toggles"])
    .togglesNotArray
  let toggles ← checkEach
    (fun i => checkToggleEntry (place ++ [.field "toggles", .item i])) 0 toggles
  return .toggle label toggles

/-- The two strings of a `rego` or `string` decision. -/
def checkKeyValue (place : Place) (tag : String) (entry : Entries) : Checked (String × String) :=
  match (entry.get? "key").bind Value.asString?, (entry.get? "value").bind Value.asString? with
  | some key, some value => .ok (key, value)
  | _, _ => .error ⟨place, .keyOrValueNotString tag⟩

/-- One entry of `schema.decision` (`check_decision_entry`). -/
def checkDecision (place : Place) (value : Value) : Checked Decision := do
  let entry ← require value.asMapping? place .decisionNotMapping
  match (entry.get? "type").bind Value.asString? with
  | some "rego" => (checkKeyValue place "rego" entry).map fun (key, value) => .rego key value
  | some "string" => (checkKeyValue place "string" entry).map fun (key, value) => .string key value
  | some "toggle" => checkToggle place entry
  | _ => .error ⟨place ++ [.field "type"], .unknownDecisionType (.ofField (entry.get? "type"))⟩

/-- The place of `schema.decision`. -/
def decisionPlace : Place := [.field "schema", .field "decision"]

/-- The list `schema.decision` (`check_decision`). -/
def checkDecisions (value : Value) : Checked (List Decision) := do
  let entries ← require value.asSequence? decisionPlace .decisionNotArray
  checkEach (fun i => checkDecision (decisionPlace ++ [.item i])) 0 entries

/-! ## Policy -/

/-- The mapping `policy`, whose rule has the type `rego` (`check_policy`). -/
def checkPolicy (value : Value) : Checked Policy := do
  let policy ← require value.asMapping? [.field "policy"] .policyNotMapping
  let rulePlace : Place := [.field "policy", .field "rule"]
  let rule ← require ((policy.get? "rule").bind Value.asMapping?) rulePlace .ruleNotMapping
  let tag ← require ((rule.get? "type").bind Value.asString?) (rulePlace ++ [.field "type"])
    .ruleTypeNotString
  if tag ≠ "rego" then
    throw ⟨rulePlace ++ [.field "type"], .unknownRuleType tag⟩
  let body ← require ((rule.get? "value").bind Value.asString?) (rulePlace ++ [.field "value"])
    .ruleValueNotString
  return ⟨body⟩

/-! ## Parameters -/

/-- The strings of a list, if it holds nothing else (`string_list`). -/
def strings? (items : List Value) : Option (List String) := items.mapM Value.asString?

/-- The numbers of a list, if it holds nothing else (`number_list`). -/
def numbers? (items : List Value) : Option (List Binary64) := items.mapM Value.asNumber?

/-- The parameter that is being checked, which every violation in it names (`ParamContext`). -/
structure Scope where
  place : Place
  type : ParameterType
  name : String

/-- A violation in a parameter (`ParamContext::error`). -/
def Scope.violation (s : Scope) (steps : Place) (fault : ParameterFault) : Violation :=
  ⟨s.place ++ steps, .parameter s.type s.name fault⟩

/-- The value that is there, or a violation in the parameter. -/
def Scope.require {α : Type} (s : Scope) (value : Option α) (steps : Place) (fault : ParameterFault) :
    Checked α :=
  Schema.require value (s.place ++ steps) (.parameter s.type s.name fault)

/-- An optional field that is a string (`optional_string`). -/
def Scope.optionalString (s : Scope) (entries : Entries) (field : String) : Checked (Option String) :=
  optional (entries.present? field) fun v =>
    s.require v.asString? [.field field] (.notString field (.ofValue v))

/-- An optional field that is a boolean (`optional_bool`). -/
def Scope.optionalBool (s : Scope) (entries : Entries) (field : String) : Checked (Option Bool) :=
  optional (entries.present? field) fun v =>
    s.require v.asBool? [.field field] (.notBool field (.ofValue v))

/-- The sources of a query that are set, in their fixed order. -/
def sourcesSet (query : Entries) : List (QuerySource × Value) :=
  QuerySource.all.filterMap fun source =>
    ((query.get? source.key).filter Value.isTruthy).map (source, ·)

/-- The field `items` (`check_items`): a list of strings, or a query of exactly one source. -/
def Scope.checkItems (s : Scope) (value : Value) : Checked Items :=
  match value.asSequence? with
  | some list => (s.require (strings? list) [.field "items"] .itemsNotStrings).map .list
  | none => do
    let query ← s.require value.asMapping? [.field "items"] (.itemsShape (.ofValue value))
    let text ← s.require ((query.get? "query").bind Value.asString?) [.field "items", .field "query"]
      .queryNotString
    match sourcesSet query with
    | [(source, name)] =>
      let name ← s.require name.asString? [.field "items", .field source.key] (.sourceNotString source)
      return .query text source name
    | selected => throw (s.violation [.field "items"] (.sourceCount selected.length))

/-- The default of a string parameter and what it may be chosen from. -/
def Scope.checkString (s : Scope) (entries : Entries) : Checked ParameterKind := do
  let default ← s.optionalString entries "default"
  let items ← optional (entries.present? "items") s.checkItems
  return .string default items

/-- A default that is a list of strings. -/
def Scope.checkStringsDefault (s : Scope) (value : Value) : Checked (List String) := do
  let list ← s.require value.asSequence? [.field "default"] .defaultNotArray
  s.require (strings? list) [.field "default"] .defaultNotStrings

/-- The default of a set of strings and what it may be chosen from. -/
def Scope.checkSetOfStrings (s : Scope) (entries : Entries) : Checked ParameterKind := do
  let default ← optional (entries.present? "default") s.checkStringsDefault
  let items ← optional (entries.present? "items") s.checkItems
  return .setOfStrings default items

/-- A default that is a number. -/
def Scope.checkNumberDefault (s : Scope) (value : Value) : Checked Binary64 :=
  s.require value.asNumber? [.field "default"] (.defaultNotNumber (.ofValue value))

/-- The default of a number. -/
def Scope.checkNumber (s : Scope) (entries : Entries) : Checked ParameterKind := do
  let default ← optional (entries.present? "default") s.checkNumberDefault
  return .number default

/-- A default that is a list of numbers. -/
def Scope.checkNumbersDefault (s : Scope) (value : Value) : Checked (List Binary64) := do
  let list ← s.require value.asSequence? [.field "default"] .defaultNotArray
  s.require (numbers? list) [.field "default"] .defaultNotNumbers

/-- The default of a set of numbers. -/
def Scope.checkSetOfNumbers (s : Scope) (entries : Entries) : Checked ParameterKind := do
  let default ← optional (entries.present? "default") s.checkNumbersDefault
  return .setOfNumbers default

/-- One value in the default of an object parameter, under the key with the text `key`. -/
def Scope.checkDefaultValue (s : Scope) (type : ValueType) (key : String) (value : Value) :
    Checked DefaultValue :=
  let steps : Place := [.field "default", .entry key]
  match type with
  | .string => (s.require value.asString? steps .entryNotString).map .string
  | .setOfStrings => do
    let list ← s.require value.asSequence? steps .entryNotArray
    (s.require (strings? list) steps .entryNotStrings).map .strings
  | .setOfNumbers => do
    let list ← s.require value.asSequence? steps .entryNotArray
    (s.require (numbers? list) steps .entryNotNumbers).map .numbers

/-- The entries of the default of an object parameter, in document order, added to `found`
    (`check_object_default`). -/
def Scope.checkDefaultEntries (s : Scope) (type : ValueType) :
    ObjectDefault → Entries → Checked ObjectDefault
  | found, [] => .ok found
  | found, (key, value) :: rest => do
    let key ← s.require key.keyText? [.field "default"] .defaultKeyNotScalar
    let value ← s.checkDefaultValue type key value
    s.checkDefaultEntries type (found.insert key value) rest

/-- A default that is a mapping. -/
def Scope.checkMappingDefault (s : Scope) (value : Value) : Checked Entries :=
  s.require value.asMapping? [.field "default"] .defaultNotMapping

/-- The description of the keys of an object parameter. -/
def Scope.checkKeyDescriptor (s : Scope) (value : Value) : Checked String := do
  let key ← s.require value.asMapping? [.field "key"] .keyNotMapping
  s.require ((key.get? "placeholder").bind Value.asString?) [.field "key", .field "placeholder"]
    .keyPlaceholderNotString

/-- The placeholder in the description of the values of an object parameter. -/
def Scope.checkValuePlaceholder (s : Scope) (value : Value) : Checked String :=
  s.require value.asString? [.field "value", .field "placeholder"] .valuePlaceholderNotString

/-- The values of a default that is a mapping, once their type is known. -/
def Scope.checkTypedDefault (s : Scope) (type : ValueType) :
    Option Entries → Checked (Option ObjectDefault)
  | none => .ok none
  | some entries => (s.checkDefaultEntries type [] entries).map some

/-- The default of an object parameter and the descriptions of its keys and values
    (`check_object_parameter`). -/
def Scope.checkObject (s : Scope) (entries : Entries) : Checked ParameterKind := do
  let default ← optional (entries.present? "default") s.checkMappingDefault
  let keyPlaceholder ← optional (entries.present? "key") s.checkKeyDescriptor
  let value ← s.require ((entries.get? "value").bind Value.asMapping?) [.field "value"] .valueNotMapping
  let valuePlaceholder ← optional (value.present? "placeholder") s.checkValuePlaceholder
  let type ← s.require (((value.get? "type").bind Value.asString?).bind ValueType.ofTag?)
    [.field "value", .field "type"] (.unknownValueType (.ofField (value.get? "type")))
  let default ← s.checkTypedDefault type default
  return .object default keyPlaceholder type valuePlaceholder

/-- What a parameter carries beside the fields of every parameter. -/
def Scope.checkKind (s : Scope) (entries : Entries) : Checked ParameterKind :=
  match s.type with
  | .string => s.checkString entries
  | .setOfStrings => s.checkSetOfStrings entries
  | .number => s.checkNumber entries
  | .setOfNumbers => s.checkSetOfNumbers entries
  | .object => s.checkObject entries

/-- One entry of `schema.parameters` (`check_parameter`). -/
def checkParameter (place : Place) (value : Value) : Checked Parameter := do
  let entries ← require value.asMapping? place .parameterNotMapping
  let type ← require (((entries.get? "type").bind Value.asString?).bind ParameterType.ofTag?)
    (place ++ [.field "type"]) (.unknownParameterType (.ofField (entries.get? "type")))
  let name ← require ((entries.get? "name").bind Value.asString?) (place ++ [.field "name"])
    .parameterNameNotString
  let scope : Scope := ⟨place, type, name⟩
  let label ← scope.optionalString entries "label"
  let required ← scope.optionalBool entries "required"
  let placeholder ← scope.optionalString entries "placeholder"
  let kind ← scope.checkKind entries
  return ⟨name, label, required, placeholder, kind⟩

/-- The place of `schema.parameters`. -/
def parametersPlace : Place := [.field "schema", .field "parameters"]

/-- The list `schema.parameters` (`check_parameters`). -/
def checkParameters (value : Value) : Checked (List Parameter) := do
  let entries ← require value.asSequence? parametersPlace .parametersNotArray
  checkEach (fun i => checkParameter (parametersPlace ++ [.item i])) 0 entries

end Schema

/-! ## Documents -/

/-- The entries of a mapping; any other value has none. -/
def Yaml.Value.entries (v : Value) : Entries := v.asMapping?.getD []

open Schema in
/-- The metadata that a document holds, or the first violation in the order of the schema
    (`check_document`). -/
def Metadata.ofDocument (document : Value) : Except Violation Metadata := do
  let root := document.entries
  let title ← require ((root.get? "title").bind Value.asString?) [] .titleOrDescription
  let description ← require ((root.get? "description").bind Value.asString?) [] .titleOrDescription
  let schema := ((root.present? "schema").map Value.entries).getD []
  let decision ← optional (schema.present? "decision") checkDecisions
  let policy ← optional (root.present? "policy") checkPolicy
  let parameters ← optional (schema.present? "parameters") checkParameters
  return ⟨title, description, decision, policy, parameters⟩

/-! ## Reading a block's document -/

/-- Why a block is refused (`BlockError`). -/
inductive Rejection where
  /-- Its text is no YAML document. -/
  | malformed (text : List Char)
  /-- Its document violates the schema. -/
  | violation (v : Violation)
  deriving Repr

/-- The metadata that the text of a block stands for (`validate_metadata`). -/
def Metadata.ofText (text : List Char) : Except Rejection Metadata :=
  match Yaml.Value.ofText text with
  | .error _ => .error (.malformed text)
  | .ok document =>
    match ofDocument document with
    | .error v => .error (.violation v)
    | .ok m => .ok m

/-! ## Lemmas -/

theorem Metadata.ofText_eq_ok_iff {text : List Char} {m : Metadata} :
    ofText text = .ok m ↔
      ∃ document, Yaml.Value.ofText text = .ok document ∧ ofDocument document = .ok m := by
  rw [ofText]
  cases Yaml.Value.ofText text with
  | error fault => simp
  | ok document => cases h : ofDocument document <;> simp [h]

namespace Schema

@[simp] theorem checkEach_nil {α : Type} (check : Nat → Value → Checked α) (i : Nat) :
    checkEach check i [] = .ok [] := rfl

theorem checkEach_cons {α : Type} (check : Nat → Value → Checked α) (i : Nat) (v : Value)
    (rest : List Value) :
    checkEach check i (v :: rest) =
      (check i v).bind fun first => (checkEach check (i + 1) rest).map (first :: ·) := by
  rw [checkEach]
  cases check i v with
  | error e => rfl
  | ok first => cases checkEach check (i + 1) rest <;> rfl

end Schema

end SnippetAudit
