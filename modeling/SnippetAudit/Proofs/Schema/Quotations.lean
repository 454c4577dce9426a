import Mathlib.Data.Nat.Notation
import SnippetAudit.Proofs.Number.Digits
import SnippetAudit.Proofs.Schema.CheckingOrder

/-!
# What a violation quotes

The path and the message of a violation are fixed words and numbers, names of fields, and strings of
the document. A string stands in them as it stands in the document, so a line feed in a message
comes from such a string. The names are those of fields that the schema has.

Results:
* `breaksLine_of_path_or_message`: a line feed comes from a name of a field or from a quoted string.
* `nameFields_documentRules`: every name is that of a field of the schema.
* `exists_quoted_of_breaksLine`: a line feed comes from a quoted string.
-/

namespace SnippetAudit

open Yaml (Value)

/-! ## Specification -/

/-- There is a line feed in the string. -/
def BreaksLine (s : String) : Prop := '\n' ∈ s.toList

instance (s : String) : Decidable (BreaksLine s) := inferInstanceAs (Decidable ('\n' ∈ s.toList))

/-- The name of the field that a step goes to. -/
def Step.fields : Step → List String
  | .field name => [name]
  | .item _ | .entry _ => []

/-- The key of the document that a step goes to. -/
def Step.quoted : Step → List String
  | .entry key => [key]
  | .field _ | .item _ => []

/-- The string of the document among what was found. -/
def Found.quoted : Found → List String
  | .text s => [s]
  | .nothing | .bool _ | .number _ | .array | .mapping => []

/-- The name of the field that a fault in a parameter is about. -/
def ParameterFault.fields : ParameterFault → List String
  | .notString field _ | .notBool field _ => [field]
  | _ => []

/-- The string of the document in a fault in a parameter. -/
def ParameterFault.quoted : ParameterFault → List String
  | .notString _ found | .notBool _ found | .defaultNotNumber found | .itemsShape found
  | .unknownValueType found => found.quoted
  | _ => []

/-- The names of fields in a fault. -/
def Fault.fields : Fault → List String
  | .parameter _ _ fault => fault.fields
  | _ => []

/-- The strings of the document in a fault. -/
def Fault.quoted : Fault → List String
  | .unknownDecisionType found | .toggleValueNotBool found | .unknownParameterType found =>
    found.quoted
  | .keyOrValueNotString tag | .unknownRuleType tag => [tag]
  | .parameter _ name fault => name :: fault.quoted
  | _ => []

/-- The names of fields in a violation. -/
def Violation.fields (v : Violation) : List String := v.place.flatMap Step.fields ++ v.fault.fields

/-- The strings of the document in a violation. -/
def Violation.quoted (v : Violation) : List String := v.place.flatMap Step.quoted ++ v.fault.quoted

namespace Schema

/-- The names of fields that violations are reported with. -/
def fieldNames : List String :=
  ["schema", "decision", "policy", "rule", "parameters", "type", "key", "value", "name", "label",
    "toggles", "required", "placeholder", "default", "items", "query", "datasource", "library",
    "package"]

/-- The steps to fields on the way to a place are named in `fieldNames`. -/
def Reaches (place : Place) : Prop := ∀ name ∈ place.flatMap Step.fields, name ∈ fieldNames

/-- The rules are reported with names of `fieldNames`. -/
def NameFields (rules : List Rule) : Prop := ∀ r ∈ rules, ∀ name ∈ r.violation.fields, name ∈ fieldNames

end Schema

/-! ## Line feeds in a violation -/

theorem breaksLine_append {s t : String} : BreaksLine (s ++ t) ↔ BreaksLine s ∨ BreaksLine t := by
  unfold BreaksLine
  rw [String.toList_append, List.mem_append]

theorem Found.quoted_of_breaksLine {f : Found} (h : BreaksLine f.wording) :
    ∃ s ∈ f.quoted, BreaksLine s := by
  cases f with
  | nothing | array | mapping => exact absurd h (by decide)
  | bool b => cases b <;> exact absurd h (by decide)
  | number n =>
    rcases breaksLine_append.mp h with hWord | hNumber
    · exact absurd hWord (by decide)
    · unfold BreaksLine at hNumber
      rw [String.toList_ofList] at hNumber
      exact absurd hNumber (n.not_mem_text (by decide) (by decide))
  | text s =>
    rcases breaksLine_append.mp h with hFront | hQuote
    · rcases breaksLine_append.mp hFront with hQuote | hText
      · exact absurd hQuote (by decide)
      · exact ⟨s, List.mem_singleton_self s, hText⟩
    · exact absurd hQuote (by decide)

/-- A wording that ends in what was found, behind fixed words. -/
theorem Found.quoted_of_breaksLine_append {words : String} {f : Found} (hWords : ¬ BreaksLine words)
    (h : BreaksLine (words ++ f.wording)) : ∃ s ∈ f.quoted, BreaksLine s :=
  quoted_of_breaksLine ((breaksLine_append.mp h).resolve_left hWords)

theorem ParameterFault.breaksLine_wording {fault : ParameterFault} (h : BreaksLine fault.wording) :
    ∃ s ∈ fault.fields ++ fault.quoted, BreaksLine s := by
  cases fault with
  | notString field found | notBool field found =>
    rcases breaksLine_append.mp h with hFront | hFound
    · have hField := (breaksLine_append.mp hFront).resolve_right (by decide)
      exact ⟨field, List.mem_cons_self, hField⟩
    · obtain ⟨s, hs, hBreak⟩ := Found.quoted_of_breaksLine hFound
      exact ⟨s, List.mem_cons_of_mem _ hs, hBreak⟩
  | defaultNotNumber found | itemsShape found =>
    exact Found.quoted_of_breaksLine_append (by decide +kernel) h
  | unknownValueType found =>
    have hFront := (breaksLine_append.mp h).resolve_right (by decide +kernel)
    have hFound := (breaksLine_append.mp hFront).resolve_right (by decide +kernel)
    exact Found.quoted_of_breaksLine_append (by decide +kernel) hFound
  | sourceCount count =>
    rcases breaksLine_append.mp h with hWords | hCount
    · exact absurd hWords (by decide +kernel)
    · exact absurd hCount (not_mem_toString_nat (by decide) count)
  | sourceNotString source => cases source <;> exact absurd h (by decide +kernel)
  | defaultNotArray | defaultNotStrings | defaultNotNumbers | itemsNotStrings | queryNotString
  | defaultNotMapping | keyNotMapping | keyPlaceholderNotString | valueNotMapping
  | valuePlaceholderNotString | defaultKeyNotScalar | entryNotString | entryNotArray
  | entryNotStrings | entryNotNumbers => exact absurd h (by decide +kernel)

theorem Fault.breaksLine_wording {fault : Fault} (h : BreaksLine fault.wording) :
    ∃ s ∈ fault.fields ++ fault.quoted, BreaksLine s := by
  cases fault with
  | unknownDecisionType found | unknownParameterType found =>
    have hFront := (breaksLine_append.mp h).resolve_right (by decide +kernel)
    have hFound := (breaksLine_append.mp hFront).resolve_right (by decide +kernel)
    exact Found.quoted_of_breaksLine_append (by decide +kernel) hFound
  | toggleValueNotBool found => exact Found.quoted_of_breaksLine_append (by decide +kernel) h
  | keyOrValueNotString tag | unknownRuleType tag =>
    have hFront := (breaksLine_append.mp h).resolve_right (by decide +kernel)
    have hTag := (breaksLine_append.mp hFront).resolve_left (by decide +kernel)
    exact ⟨tag, List.mem_singleton_self tag, hTag⟩
  | parameter type name fault =>
    rcases breaksLine_append.mp h with hFront | hFault
    · have hFront := (breaksLine_append.mp hFront).resolve_right (by decide)
      have hName := (breaksLine_append.mp hFront).resolve_left (by cases type <;> decide +kernel)
      exact ⟨name, List.mem_append_right _ List.mem_cons_self, hName⟩
    · obtain ⟨s, hs, hBreak⟩ := ParameterFault.breaksLine_wording hFault
      refine ⟨s, ?_, hBreak⟩
      rcases List.mem_append.mp hs with hField | hQuoted
      · exact List.mem_append_left _ hField
      · exact List.mem_append_right _ (List.mem_cons_of_mem _ hQuoted)
  | titleOrDescription | decisionNotArray | decisionNotMapping | labelMissing | labelNotString
  | togglesNotArray | toggleNotMapping | toggleKeyNotString | policyNotMapping | ruleNotMapping
  | ruleTypeNotString | ruleValueNotString | parametersNotArray | parameterNotMapping
  | parameterNameNotString => exact absurd h (by decide +kernel)

theorem Step.breaksLine_text {step : Step} (h : BreaksLine step.text) :
    ∃ s ∈ step.fields ++ step.quoted, BreaksLine s := by
  cases step with
  | field name =>
    exact ⟨name, List.mem_singleton_self name, (breaksLine_append.mp h).resolve_left (by decide)⟩
  | entry key =>
    exact ⟨key, List.mem_singleton_self key, (breaksLine_append.mp h).resolve_left (by decide)⟩
  | item index =>
    have hFront := (breaksLine_append.mp h).resolve_right (by decide)
    have hIndex := (breaksLine_append.mp hFront).resolve_left (by decide)
    exact absurd hIndex (not_mem_toString_nat (by decide) index)

theorem Place.breaksLine_text {place : Place} (h : BreaksLine place.text) :
    ∃ s ∈ place.flatMap Step.fields ++ place.flatMap Step.quoted, BreaksLine s := by
  have hJoin {steps : Place} (h : BreaksLine (String.join (steps.map Step.text))) :
      ∃ step ∈ steps, ∃ s ∈ step.fields ++ step.quoted, BreaksLine s := by
    unfold BreaksLine at h
    rw [String.toList_join, List.flatMap_map] at h
    obtain ⟨step, hStep, hFeed⟩ := List.mem_flatMap.mp h
    exact ⟨step, hStep, Step.breaksLine_text hFeed⟩
  have hStep : ∃ step ∈ place, ∃ s ∈ step.fields ++ step.quoted, BreaksLine s := by
    unfold Place.text at h
    split at h
    · exact absurd h (by decide)
    · rename_i name steps
      rcases breaksLine_append.mp h with hName | hSteps
      · exact ⟨.field name, List.mem_cons_self, name, List.mem_singleton_self name, hName⟩
      · obtain ⟨step, hStep, hBreak⟩ := hJoin hSteps
        exact ⟨step, List.mem_cons_of_mem _ hStep, hBreak⟩
    · exact hJoin h
  obtain ⟨step, hStep, s, hs, hBreak⟩ := hStep
  refine ⟨s, ?_, hBreak⟩
  rcases List.mem_append.mp hs with hField | hQuoted
  · exact List.mem_append_left _ (List.mem_flatMap_of_mem hStep hField)
  · exact List.mem_append_right _ (List.mem_flatMap_of_mem hStep hQuoted)

/-- A line feed in a violation comes from a name of a field or from a string of the document. -/
theorem Violation.breaksLine_of_path_or_message {v : Violation}
    (h : BreaksLine v.path ∨ BreaksLine v.message) : ∃ s ∈ v.fields ++ v.quoted, BreaksLine s := by
  unfold fields quoted
  rcases h with hPath | hMessage
  · obtain ⟨s, hs, hBreak⟩ := Place.breaksLine_text hPath
    refine ⟨s, ?_, hBreak⟩
    simp only [List.mem_append] at hs ⊢
    tauto
  · obtain ⟨s, hs, hBreak⟩ := Fault.breaksLine_wording hMessage
    refine ⟨s, ?_, hBreak⟩
    simp only [List.mem_append] at hs ⊢
    tauto

/-! ## Names of fields -/

namespace Schema

@[simp] theorem nameFields_nil : NameFields [] := by
  intro r hr
  cases hr

@[simp] theorem nameFields_append {rules rules' : List Rule} :
    NameFields (rules ++ rules') ↔ NameFields rules ∧ NameFields rules' := List.forall_mem_append

/-- A rule names the fields on the way to its place and those of its fault. -/
@[simp] theorem nameFields_cons {place : Place} {fault : Fault} {kept : Bool} {rules : List Rule} :
    NameFields (⟨place, fault, kept⟩ :: rules) ↔
      (Reaches place ∧ ∀ name ∈ fault.fields, name ∈ fieldNames) ∧ NameFields rules := by
  unfold NameFields
  rw [List.forall_mem_cons]
  exact and_congr_left' List.forall_mem_append

@[simp] theorem reaches_append {place steps : Place} :
    Reaches (place ++ steps) ↔ Reaches place ∧ Reaches steps := by
  unfold Reaches
  rw [List.flatMap_append]
  exact List.forall_mem_append

@[simp] theorem reaches_nil : Reaches [] := by
  intro name hName
  cases hName

@[simp] theorem reaches_field {name : String} {steps : Place} :
    Reaches (.field name :: steps) ↔ name ∈ fieldNames ∧ Reaches steps := List.forall_mem_cons

@[simp] theorem reaches_item {i : ℕ} {steps : Place} : Reaches (.item i :: steps) ↔ Reaches steps :=
  Iff.rfl

@[simp] theorem reaches_entry {key : String} {steps : Place} :
    Reaches (.entry key :: steps) ↔ Reaches steps := Iff.rfl

theorem nameFields_optional {v : Value} {rules : List Rule} (h : NameFields rules) :
    NameFields (optionalRules v rules) := by
  unfold optionalRules
  split
  · exact nameFields_nil
  · exact h

theorem nameFields_listRules {base : Place} {fault : Fault} {rules : Place → Value → List Rule}
    (v : Value) (hBase : Reaches base) (hFault : fault.fields = [])
    (hRules : ∀ place v, Reaches place → NameFields (rules place v)) :
    NameFields (listRules base fault rules v) := by
  unfold listRules
  refine nameFields_cons.mpr ⟨⟨hBase, by simp [hFault]⟩, ?_⟩
  intro r hr
  obtain ⟨⟨w, i⟩, _, hMem⟩ := List.mem_flatMap.mp hr
  exact hRules _ w (by simp [hBase]) r hMem

/-! ## Decisions and the policy -/

section

variable {place : Place} (h : Reaches place) (v : Value)

include h

theorem nameFields_toggleRules : NameFields (toggleRules place v) := by
  simp [toggleRules, h, Fault.fields, fieldNames]

theorem nameFields_decisionTagRules (tag : Option String) :
    NameFields (decisionTagRules place v tag) := by
  unfold decisionTagRules
  split
  · refine nameFields_append.mpr ⟨by simp [h, Fault.fields, fieldNames], ?_⟩
    exact nameFields_listRules _ (by simp [h, fieldNames]) rfl
      fun place v hPlace => nameFields_toggleRules hPlace v
  · simp [h, Fault.fields]
  · exact nameFields_nil

theorem nameFields_decisionRules : NameFields (decisionRules place v) := by
  unfold decisionRules
  refine nameFields_append.mpr ⟨by simp [h, Fault.fields, fieldNames], ?_⟩
  exact nameFields_decisionTagRules h v _

end

theorem nameFields_policyRules (v : Value) : NameFields (policyRules v) := by
  simp [policyRules, Fault.fields, fieldNames]

/-! ## Parameters -/

namespace Scope

variable {s : Scope}

@[simp] theorem nameFields_rule {steps : Place} {fault : ParameterFault} {kept : Bool}
    {rules : List Rule} : NameFields (s.rule steps fault kept :: rules) ↔
      ((Reaches s.place ∧ Reaches steps) ∧ ∀ name ∈ fault.fields, name ∈ fieldNames) ∧
        NameFields rules := by
  unfold rule
  rw [nameFields_cons, reaches_append]
  rfl

variable (h : Reaches s.place) (v : Value)

include h

theorem nameFields_stringRules {key : String} (hKey : key ∈ fieldNames) :
    NameFields (s.stringRules v key) :=
  nameFields_optional (by simp [h, hKey, ParameterFault.fields])

theorem nameFields_boolRules {key : String} (hKey : key ∈ fieldNames) :
    NameFields (s.boolRules v key) :=
  nameFields_optional (by simp [h, hKey, ParameterFault.fields])

theorem nameFields_itemsRules : NameFields (s.itemsRules v) := by
  unfold itemsRules
  split
  · simp [h, ParameterFault.fields, fieldNames]
  · refine nameFields_append.mpr ⟨by simp [h, ParameterFault.fields, fieldNames], ?_⟩
    intro r hr
    obtain ⟨source, _, rfl⟩ := List.mem_map.mp hr
    have hItems : "items" ∈ fieldNames := by decide
    have hSource : source.key ∈ fieldNames := by cases source <;> decide
    have hOne : NameFields [s.rule [.field "items", .field source.key] (.sourceNotString source)
        (v.field source.key).isString] := by
      simp [h, hItems, hSource, ParameterFault.fields]
    exact hOne _ (List.mem_singleton_self _)

theorem nameFields_defaultEntryRules (type : ValueType) (entry : Value × Value) :
    NameFields (s.defaultEntryRules type entry) := by
  cases type <;>
    simp [defaultEntryRules, defaultValueRules, h, ParameterFault.fields, fieldNames]

theorem nameFields_typedDefaultRules (type? : Option ValueType) :
    NameFields (s.typedDefaultRules v type?) := by
  cases type? with
  | none => exact nameFields_nil
  | some type =>
    intro r hr
    obtain ⟨entry, _, hMem⟩ := List.mem_flatMap.mp hr
    exact nameFields_defaultEntryRules h type entry r hMem

theorem nameFields_objectRules : NameFields (s.objectRules v) := by
  simp only [objectRules, nameFields_append]
  refine ⟨⟨⟨⟨⟨nameFields_optional ?_, nameFields_optional ?_⟩, ?_⟩, nameFields_optional ?_⟩, ?_⟩,
    nameFields_typedDefaultRules h _ _⟩
  all_goals simp [h, ParameterFault.fields, fieldNames]

theorem nameFields_kindRules : NameFields (s.kindRules v) := by
  have hItems : NameFields (optionalRules (v.field "items") (s.itemsRules (v.field "items"))) :=
    nameFields_optional (nameFields_itemsRules h _)
  unfold kindRules
  cases s.type with
  | string => exact nameFields_append.mpr ⟨nameFields_stringRules h v (by decide), hItems⟩
  | setOfStrings =>
    refine nameFields_append.mpr ⟨nameFields_optional ?_, hItems⟩
    simp [h, ParameterFault.fields, fieldNames]
  | number => exact nameFields_optional (by simp [h, ParameterFault.fields, fieldNames])
  | setOfNumbers => exact nameFields_optional (by simp [h, ParameterFault.fields, fieldNames])
  | object => exact nameFields_objectRules h v

theorem nameFields_rules : NameFields (s.rules v) := by
  simp only [rules, nameFields_append]
  exact ⟨⟨⟨nameFields_stringRules h v (by decide), nameFields_boolRules h v (by decide)⟩,
    nameFields_stringRules h v (by decide)⟩, nameFields_kindRules h v⟩

end Scope

theorem nameFields_parameterRules {place : Place} (h : Reaches place) (v : Value) :
    NameFields (parameterRules place v) := by
  unfold parameterRules
  refine nameFields_append.mpr ⟨by simp [h, Fault.fields, fieldNames], ?_⟩
  unfold typedRules
  split
  · exact nameFields_nil
  · exact Scope.nameFields_rules h v

/-! ## Documents -/

/-- Every rule for a document is reported with names of fields that the schema has. -/
theorem nameFields_documentRules (document : Value) : NameFields (documentRules document) := by
  simp only [documentRules, nameFields_append]
  refine ⟨⟨⟨by simp [headerRule, Fault.fields], nameFields_optional ?_⟩, nameFields_optional ?_⟩,
    nameFields_optional ?_⟩
  · exact nameFields_listRules _ (by simp [decisionPlace, fieldNames]) rfl
      fun place v hPlace => nameFields_decisionRules hPlace v
  · exact nameFields_policyRules _
  · exact nameFields_listRules _ (by simp [parametersPlace, fieldNames]) rfl
      fun place v hPlace => nameFields_parameterRules hPlace v

theorem fieldNames_not_breaksLine : ∀ name ∈ fieldNames, ¬ BreaksLine name := by
  decide +kernel

end Schema

/-- A line feed in what a document is refused with comes from a string of the document. -/
theorem Violation.exists_quoted_of_breaksLine {document : Value} {v : Violation}
    (hRefused : Metadata.ofDocument document = .error v)
    (hBreak : BreaksLine v.path ∨ BreaksLine v.message) : ∃ s ∈ v.quoted, BreaksLine s := by
  have hFirst : Schema.firstBroken? (Schema.documentRules document) = some v := by
    rw [← Schema.obeys_ofDocument, hRefused]
    rfl
  obtain ⟨front, rule, back, hRules, _, _, rfl⟩ := Schema.firstBroken?_eq_some_iff.mp hFirst
  have hRule : rule ∈ Schema.documentRules document := by simp [hRules]
  obtain ⟨s, hs, hFeed⟩ := breaksLine_of_path_or_message hBreak
  refine ⟨s, (List.mem_append.mp hs).resolve_left ?_, hFeed⟩
  intro hField
  exact Schema.fieldNames_not_breaksLine s
    (Schema.nameFields_documentRules document rule hRule s hField) hFeed

end SnippetAudit
