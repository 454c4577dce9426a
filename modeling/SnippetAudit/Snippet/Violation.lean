import SnippetAudit.Snippet.Metadata
import SnippetAudit.Yaml.Value

/-!
# Violations of the snippet schema

A violation says where a document leaves the schema and what was expected there. The
place is a list of steps from the root, the expectation a `Fault`; `Violation.path`
and `Violation.message` are their texts.

Results:
* `Place.text_root`: the root is written `(root)`.
-/

namespace SnippetAudit

open Yaml (Value)

/-! ## Places -/

/-- One step into a document: a field of a mapping, an item of a sequence, or the entry of a mapping
    with free keys whose key has a given text. -/
inductive Step where
  | field (name : String)
  | item (index : Nat)
  | entry (key : String)
  deriving DecidableEq, Repr

/-- A place in a document, as the steps from the root. -/
abbrev Place := List Step

/-- The text of a step behind others. -/
def Step.text : Step → String
  | .field name => "." ++ name
  | .item index => "[" ++ toString index ++ "]"
  | .entry key => "." ++ key

/-- The text of a place, such as `schema.parameters[1].default`. -/
def Place.text : Place → String
  | [] => "(root)"
  | .field name :: steps => name ++ String.join (steps.map Step.text)
  | steps => String.join (steps.map Step.text)

/-! ## What was found -/

/-- What a message says about the value that it found in place of another. -/
inductive Found where
  | nothing
  | bool (b : Bool)
  | number (n : Yaml.Number)
  | text (s : String)
  | array
  | mapping
  deriving DecidableEq, Repr

/-- What a message says about a value, looking through tags; null counts as nothing. -/
def Found.ofValue (v : Value) : Found :=
  match v.untag with
  | .null => .nothing
  | .bool b => .bool b
  | .number n => .number n
  | .string s => .text s
  | .sequence _ => .array
  | _ => .mapping

/-- What a message says about a value that may be absent. -/
def Found.ofField (v : Option Value) : Found :=
  match v with
  | none => .nothing
  | some v => .ofValue v

/-- The wording for what was found (`describe`). -/
def Found.wording : Found → String
  | .nothing => "missing"
  | .bool b => "boolean " ++ (if b then "true" else "false")
  | .number n => "number " ++ String.ofList n.text
  | .text s => "\"" ++ s ++ "\""
  | .array => "an array"
  | .mapping => "a mapping"

/-! ## Faults -/

/-- What is wrong with a field of a parameter. -/
inductive ParameterFault where
  | notString (field : String) (found : Found)
  | notBool (field : String) (found : Found)
  | defaultNotArray
  | defaultNotStrings
  | defaultNotNumber (found : Found)
  | defaultNotNumbers
  | itemsNotStrings
  | itemsShape (found : Found)
  | queryNotString
  | sourceCount (count : Nat)
  | sourceNotString (source : QuerySource)
  | defaultNotMapping
  | keyNotMapping
  | keyPlaceholderNotString
  | valueNotMapping
  | valuePlaceholderNotString
  | unknownValueType (found : Found)
  | defaultKeyNotScalar
  | entryNotString
  | entryNotArray
  | entryNotStrings
  | entryNotNumbers
  deriving DecidableEq, Repr

/-- What is wrong with a document. -/
inductive Fault where
  | titleOrDescription
  | decisionNotArray
  | decisionNotMapping
  | unknownDecisionType (found : Found)
  | keyOrValueNotString (tag : String)
  | labelMissing
  | labelNotString
  | togglesNotArray
  | toggleNotMapping
  | toggleKeyNotString
  | toggleValueNotBool (found : Found)
  | policyNotMapping
  | ruleNotMapping
  | ruleTypeNotString
  | unknownRuleType (tag : String)
  | ruleValueNotString
  | parametersNotArray
  | parameterNotMapping
  | unknownParameterType (found : Found)
  | parameterNameNotString
  | parameter (type : ParameterType) (name : String) (fault : ParameterFault)
  deriving DecidableEq, Repr

/-- The wording of a fault in a parameter, behind the parameter's type and name. -/
def ParameterFault.wording : ParameterFault → String
  | .notString field found => field ++ " should be a string, got " ++ found.wording
  | .notBool field found => field ++ " should be a boolean, got " ++ found.wording
  | .defaultNotArray => "default should be an array"
  | .defaultNotStrings => "default array should have string values"
  | .defaultNotNumber found => "default should be a number, got " ++ found.wording
  | .defaultNotNumbers => "default array should have number values"
  | .itemsNotStrings => "items array should contain only strings"
  | .itemsShape found => "items should be an array or mapping, got " ++ found.wording
  | .queryNotString => "items query should be a string"
  | .sourceCount count =>
    "datasource, library and package are mutually exclusive; exactly one must be set, found "
      ++ toString count
  | .sourceNotString source => source.key ++ " should be a string"
  | .defaultNotMapping => "default should be a mapping"
  | .keyNotMapping => "key should be a mapping"
  | .keyPlaceholderNotString => "key's placeholder should be a string"
  | .valueNotMapping => "value should be a mapping"
  | .valuePlaceholderNotString => "value's placeholder should be a string"
  | .unknownValueType found =>
    "unknown value type " ++ found.wording ++ "; expected one of "
      ++ ", ".intercalate (ValueType.all.map ValueType.tag)
  | .defaultKeyNotScalar => "default object keys should be scalars"
  | .entryNotString => "default object values should be strings"
  | .entryNotArray => "default object values should be an array"
  | .entryNotStrings => "default object values should be an array of strings"
  | .entryNotNumbers => "default object values should be an array of numbers"

/-- The wording of a fault. -/
def Fault.wording : Fault → String
  | .titleOrDescription => "title and description of the snippet must be strings"
  | .decisionNotArray => "decision must be an array"
  | .decisionNotMapping => "every entry in decision must be a mapping"
  | .unknownDecisionType found =>
    "unknown entry type " ++ found.wording ++ " in decision; expected one of "
      ++ ", ".intercalate Decision.tags
  | .keyOrValueNotString tag => "key and value in decision entry type " ++ tag ++ " should be strings"
  | .labelMissing => "decision entry type toggle should have a label field"
  | .labelNotString => "decision entry type toggle's label should be a string"
  | .togglesNotArray => "decision entry type toggle's toggles should be an array"
  | .toggleNotMapping => "toggles entry should be a mapping"
  | .toggleKeyNotString => "toggles entry key should be a string"
  | .toggleValueNotBool found => "toggles entry value should be a boolean, got " ++ found.wording
  | .policyNotMapping => "policy must be a mapping"
  | .ruleNotMapping => "rule must be a mapping"
  | .ruleTypeNotString => "rule type must be a string"
  | .unknownRuleType tag => "unknown rule type \"" ++ tag ++ "\"; expected \"rego\""
  | .ruleValueNotString => "rule value must be a string"
  | .parametersNotArray => "parameters must be an array"
  | .parameterNotMapping => "each parameter in parameters should be a mapping"
  | .unknownParameterType found =>
    "unknown parameter type " ++ found.wording ++ "; expected one of "
      ++ ", ".intercalate (ParameterType.all.map ParameterType.tag)
  | .parameterNameNotString => "parameter name should be a string"
  | .parameter type name fault => type.tag ++ " parameter \"" ++ name ++ "\": " ++ fault.wording

/-- A violation of the schema (`SchemaError`): a place and what is wrong there. -/
structure Violation where
  place : Place
  fault : Fault
  deriving DecidableEq, Repr

/-- The text of the place of a violation. -/
def Violation.path (v : Violation) : String := v.place.text

/-- What a violation says. -/
def Violation.message (v : Violation) : String := v.fault.wording

/-! ## Lemmas -/

@[simp] theorem Place.text_root : Place.text [] = "(root)" := rfl

@[simp] theorem Found.ofValue_untag (v : Value) : Found.ofValue v.untag = Found.ofValue v := by
  simp [Found.ofValue]

end SnippetAudit
