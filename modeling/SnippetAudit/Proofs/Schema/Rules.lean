import SnippetAudit.Proofs.Schema.Reads

/-!
# The rules of the snippet schema

The schema as one list of rules for each document, in the order in which they count: title and
description, `schema.decision`, `policy`, `schema.parameters`. Every rule says where it looks, what
is wrong where it is broken, and whether the document keeps it. What comes after a broken rule
stands in the list as well; there a field that is missing reads as null, and what is no list or no
mapping reads as an empty one.

Results:
* `firstBroken?_eq_some_iff`: the first broken rule, by the rules before it.
* `firstBroken?_append`: the rules of one part count before those of the next.
* `firstBroken?_numbered`: in a list the first item with a broken rule counts, and what is behind
  it does not.
-/

namespace SnippetAudit

open Yaml (Value Entries)

namespace Yaml.Value

/-! ## Reading on after a broken rule -/

/-- The field `key`, or null. -/
def field (v : Value) (key : String) : Value := (v.entries.get? key).getD .null

/-- The items of a sequence; any other value has none. -/
def items (v : Value) : List Value := v.asSequence?.getD []

def isString (v : Value) : Bool := v.asString?.isSome

def isBool (v : Value) : Bool := v.asBool?.isSome

def isNumber (v : Value) : Bool := v.asNumber?.isSome

def isList (v : Value) : Bool := v.asSequence?.isSome

def isMapping (v : Value) : Bool := v.asMapping?.isSome

end Yaml.Value

namespace Schema

/-! ## Specification -/

/-- A rule, as it stands for one document. -/
structure Rule where
  place : Place
  fault : Fault
  kept : Bool
  deriving DecidableEq, Repr

/-- What a broken rule is reported as. -/
def Rule.violation (r : Rule) : Violation := ⟨r.place, r.fault⟩

/-- The first rule that is broken, as it is reported. -/
def firstBroken? (rules : List Rule) : Option Violation :=
  (rules.find? fun r => !r.kept).map Rule.violation

/-- The rules for an optional field, which null keeps. -/
def optionalRules (v : Value) (rules : List Rule) : List Rule :=
  if v.isNull then [] else rules

/-- The rules for each item of a list in turn, the first of which has the index `i`. -/
def numbered (base : Place) (rules : Place → Value → List Rule) (i : Nat) (items : List Value) :
    List Rule :=
  (items.zipIdx i).flatMap fun (v, i) => rules (base ++ [.item i]) v

/-- The rules for a list: that it is one, and those for its items. -/
def listRules (base : Place) (fault : Fault) (rules : Place → Value → List Rule) (v : Value) :
    List Rule :=
  ⟨base, fault, v.isList⟩ :: numbered base rules 0 v.items

/-- A switch of a toggle decision. -/
def toggleRules (place : Place) (v : Value) : List Rule :=
  [⟨place, .toggleNotMapping, v.isMapping⟩,
    ⟨place ++ [.field "key"], .toggleKeyNotString, (v.field "key").isString⟩,
    ⟨place ++ [.field "value"], .toggleValueNotBool (.ofValue (v.field "value")),
      (v.field "value").isBool⟩]

/-- What the tag of a decision asks for. -/
def decisionTagRules (place : Place) (v : Value) : Option String → List Rule
  | some "toggle" =>
    [⟨place, .labelMissing, (v.field "label").isTruthy⟩,
      ⟨place ++ [.field "label"], .labelNotString, (v.field "label").isString⟩] ++
      listRules (place ++ [.field "toggles"]) .togglesNotArray toggleRules (v.field "toggles")
  | some tag =>
    [⟨place, .keyOrValueNotString tag, (v.field "key").isString && (v.field "value").isString⟩]
  | none => []

/-- An entry of `schema.decision`. -/
def decisionRules (place : Place) (v : Value) : List Rule :=
  [⟨place, .decisionNotMapping, v.isMapping⟩,
    ⟨place ++ [.field "type"], .unknownDecisionType (.ofValue (v.field "type")),
      (v.field "type").asString?.any (Decision.tags.contains ·)⟩] ++
    decisionTagRules place v (v.field "type").asString?

/-- The mapping `policy`. -/
def policyRules (v : Value) : List Rule :=
  let place : Place := [.field "policy"]
  let rulePlace : Place := [.field "policy", .field "rule"]
  let rule := v.field "rule"
  [⟨place, .policyNotMapping, v.isMapping⟩,
    ⟨rulePlace, .ruleNotMapping, rule.isMapping⟩,
    ⟨rulePlace ++ [.field "type"], .ruleTypeNotString, (rule.field "type").isString⟩,
    ⟨rulePlace ++ [.field "type"], .unknownRuleType ((rule.field "type").asString?.getD ""),
      (rule.field "type").asString? = some "rego"⟩,
    ⟨rulePlace ++ [.field "value"], .ruleValueNotString, (rule.field "value").isString⟩]

namespace Scope

/-- A rule for the parameter of the scope. -/
def rule (s : Scope) (steps : Place) (fault : ParameterFault) (kept : Bool) : Rule :=
  ⟨s.place ++ steps, .parameter s.type s.name fault, kept⟩

/-- An optional field that is a string. -/
def stringRules (s : Scope) (v : Value) (key : String) : List Rule :=
  optionalRules (v.field key)
    [s.rule [.field key] (.notString key (.ofValue (v.field key))) (v.field key).isString]

/-- An optional field that is a boolean. -/
def boolRules (s : Scope) (v : Value) (key : String) : List Rule :=
  optionalRules (v.field key)
    [s.rule [.field key] (.notBool key (.ofValue (v.field key))) (v.field key).isBool]

/-- The sources of a query that are set. -/
def sources (query : Value) : List QuerySource :=
  QuerySource.all.filter fun source => (query.field source.key).isTruthy

/-- The field `items`: a list of strings, or a query with one source. -/
def itemsRules (s : Scope) (v : Value) : List Rule :=
  if v.isList then [s.rule [.field "items"] .itemsNotStrings (v.items.all (·.isString))]
  else
    [s.rule [.field "items"] (.itemsShape (.ofValue v)) v.isMapping,
      s.rule [.field "items", .field "query"] .queryNotString (v.field "query").isString,
      s.rule [.field "items"] (.sourceCount (sources v).length) ((sources v).length = 1)] ++
      (sources v).map fun source =>
        s.rule [.field "items", .field source.key] (.sourceNotString source)
          (v.field source.key).isString

/-- A value in the default of an object parameter, under a key with the text `key`. -/
def defaultValueRules (s : Scope) (key : String) (v : Value) : ValueType → List Rule
  | .string => [s.rule [.field "default", .entry key] .entryNotString v.isString]
  | .setOfStrings =>
    [s.rule [.field "default", .entry key] .entryNotArray v.isList,
      s.rule [.field "default", .entry key] .entryNotStrings (v.items.all (·.isString))]
  | .setOfNumbers =>
    [s.rule [.field "default", .entry key] .entryNotArray v.isList,
      s.rule [.field "default", .entry key] .entryNotNumbers (v.items.all (·.isNumber))]

/-- An entry in the default of an object parameter. -/
def defaultEntryRules (s : Scope) (type : ValueType) (entry : Value × Value) : List Rule :=
  s.rule [.field "default"] .defaultKeyNotScalar entry.1.keyText?.isSome ::
    s.defaultValueRules (entry.1.keyText?.getD "") entry.2 type

/-- The default of an object parameter, once the type of its values is known. -/
def typedDefaultRules (s : Scope) (v : Value) : Option ValueType → List Rule
  | none => []
  | some type => v.entries.flatMap (s.defaultEntryRules type)

/-- What an object parameter carries. -/
def objectRules (s : Scope) (v : Value) : List Rule :=
  let default := v.field "default"
  let key := v.field "key"
  let value := v.field "value"
  let type? := (value.field "type").asString?.bind ValueType.ofTag?
  optionalRules default [s.rule [.field "default"] .defaultNotMapping default.isMapping] ++
    optionalRules key
      [s.rule [.field "key"] .keyNotMapping key.isMapping,
        s.rule [.field "key", .field "placeholder"] .keyPlaceholderNotString
          (key.field "placeholder").isString] ++
    [s.rule [.field "value"] .valueNotMapping value.isMapping] ++
    optionalRules (value.field "placeholder")
      [s.rule [.field "value", .field "placeholder"] .valuePlaceholderNotString
        (value.field "placeholder").isString] ++
    [s.rule [.field "value", .field "type"] (.unknownValueType (.ofValue (value.field "type")))
      type?.isSome] ++
    s.typedDefaultRules default type?

/-- What a parameter carries by its type. -/
def kindRules (s : Scope) (v : Value) : List Rule :=
  let default := v.field "default"
  let items := optionalRules (v.field "items") (s.itemsRules (v.field "items"))
  match s.type with
  | .string => s.stringRules v "default" ++ items
  | .setOfStrings =>
    optionalRules default
      [s.rule [.field "default"] .defaultNotArray default.isList,
        s.rule [.field "default"] .defaultNotStrings (default.items.all (·.isString))] ++ items
  | .number =>
    optionalRules default
      [s.rule [.field "default"] (.defaultNotNumber (.ofValue default)) default.isNumber]
  | .setOfNumbers =>
    optionalRules default
      [s.rule [.field "default"] .defaultNotArray default.isList,
        s.rule [.field "default"] .defaultNotNumbers (default.items.all (·.isNumber))]
  | .object => s.objectRules v

/-- What a parameter has beside its type and name. -/
def rules (s : Scope) (v : Value) : List Rule :=
  s.stringRules v "label" ++ s.boolRules v "required" ++ s.stringRules v "placeholder" ++
    s.kindRules v

end Scope

/-- What the type and the name of a parameter are followed by. -/
def typedRules (place : Place) (v : Value) : Option ParameterType → List Rule
  | none => []
  | some type => Scope.rules ⟨place, type, (v.field "name").asString?.getD ""⟩ v

/-- An entry of `schema.parameters`. -/
def parameterRules (place : Place) (v : Value) : List Rule :=
  let type? := (v.field "type").asString?.bind ParameterType.ofTag?
  [⟨place, .parameterNotMapping, v.isMapping⟩,
    ⟨place ++ [.field "type"], .unknownParameterType (.ofValue (v.field "type")), type?.isSome⟩,
    ⟨place ++ [.field "name"], .parameterNameNotString, (v.field "name").isString⟩] ++
    typedRules place v type?

/-- Title and description. -/
def headerRule (document : Value) : Rule :=
  ⟨[], .titleOrDescription,
    (document.field "title").isString && (document.field "description").isString⟩

/-- The list `schema.decision`. -/
def decisionListRules (v : Value) : List Rule :=
  optionalRules v (listRules decisionPlace .decisionNotArray decisionRules v)

/-- The list `schema.parameters`. -/
def parameterListRules (v : Value) : List Rule :=
  optionalRules v (listRules parametersPlace .parametersNotArray parameterRules v)

/-- The rules for a document. -/
def documentRules (document : Value) : List Rule :=
  [headerRule document] ++ decisionListRules ((document.field "schema").field "decision") ++
    optionalRules (document.field "policy") (policyRules (document.field "policy")) ++
    parameterListRules ((document.field "schema").field "parameters")

/-! ## The first broken rule -/

/-- The first broken rule is reported as `e` iff the rules before it are kept. -/
theorem firstBroken?_eq_some_iff {rules : List Rule} {e : Violation} :
    firstBroken? rules = some e ↔
      ∃ front rule back, rules = front ++ rule :: back ∧ (∀ r ∈ front, r.kept = true) ∧
        rule.kept = false ∧ rule.violation = e := by
  unfold firstBroken?
  rw [Option.map_eq_some_iff]
  constructor
  · rintro ⟨rule, hFind, hViolation⟩
    obtain ⟨hBroken, front, back, hRules, hFront⟩ := List.find?_eq_some_iff_append.mp hFind
    refine ⟨front, rule, back, hRules, ?_, by simpa using hBroken, hViolation⟩
    intro r hr
    simpa using hFront r hr
  · rintro ⟨front, rule, back, hRules, hFront, hBroken, hViolation⟩
    refine ⟨rule, List.find?_eq_some_iff_append.mpr ⟨by simp [hBroken], front, back, hRules, ?_⟩,
      hViolation⟩
    intro r hr
    simp [hFront r hr]

@[simp] theorem firstBroken?_nil : firstBroken? [] = none := rfl

theorem firstBroken?_append (rules rules' : List Rule) :
    firstBroken? (rules ++ rules') = (firstBroken? rules).or (firstBroken? rules') := by
  unfold firstBroken?
  rw [List.find?_append]
  cases rules.find? fun r => !r.kept <;> rfl

theorem firstBroken?_cons (rule : Rule) (rules : List Rule) :
    firstBroken? (rule :: rules) =
      if rule.kept then firstBroken? rules else some rule.violation := by
  unfold firstBroken?
  rw [List.find?_cons]
  cases rule.kept <;> rfl

theorem numbered_cons (base : Place) (rules : Place → Value → List Rule) (i : Nat) (v : Value)
    (items : List Value) :
    numbered base rules i (v :: items) =
      rules (base ++ [.item i]) v ++ numbered base rules (i + 1) items := by
  unfold numbered
  rw [List.zipIdx_cons, List.flatMap_cons]

/-- In a list the first item with a broken rule counts. -/
theorem firstBroken?_numbered {base : Place} {rules : Place → Value → List Rule} {i : Nat}
    {items : List Value} {e : Violation} :
    firstBroken? (numbered base rules i items) = some e ↔
      ∃ n v, items[n]? = some v ∧ firstBroken? (rules (base ++ [.item (i + n)]) v) = some e ∧
        ∀ j w, j < n → items[j]? = some w →
          firstBroken? (rules (base ++ [.item (i + j)]) w) = none := by
  induction items generalizing i with
  | nil => simp [numbered]
  | cons v items ih =>
    have hShift : ∀ j, i + 1 + j = i + (j + 1) := by omega
    rw [numbered_cons, firstBroken?_append, Option.or_eq_some_iff, ih]
    simp only [hShift]
    constructor
    · rintro (hHere | ⟨hKept, n, w, hItem, hBroken, hFront⟩)
      · exact ⟨0, v, rfl, hHere, by simp⟩
      · refine ⟨n + 1, w, hItem, hBroken, ?_⟩
        intro j u hj hu
        cases j with
        | zero =>
          cases hu
          exact hKept
        | succ j => exact hFront j u (by omega) hu
    · rintro ⟨n, w, hItem, hBroken, hFront⟩
      cases n with
      | zero =>
        cases hItem
        exact .inl hBroken
      | succ n =>
        refine .inr ⟨hFront 0 v (by omega) rfl, n, w, hItem, hBroken, ?_⟩
        intro j u hj hu
        exact hFront (j + 1) u (by omega) hu

end Schema

end SnippetAudit
