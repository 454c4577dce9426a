import SnippetAudit.Proofs.Schema.DefaultKeys
import SnippetAudit.Proofs.Schema.Repair

/-!
# Metadata written back as a document

Metadata that comes from a document keeps three rules that its type does not: a toggle decision has a
label, the source of a query has a name, and the values in the default of an object parameter have the
type that its descriptor asks for. Such a default is a map, so its keys ascend. Nothing else is lost in
a check: metadata that keeps these rules is written field by field under the names of the schema, and
the check gives it back as it was, down to the bits of its numbers.

Results:
* `get?_ofFields`: a field that is written is found under its name.
* `decisionIs_toValue`, `itemsIs_toValue`, `parameterIs_toValue`: what keeps the rules is read as it was
  written.
* `DecisionIs.isWellFormed`, `ItemsIs.isWellFormed`, `ParameterIs.isWellFormed`: what is read keeps the
  rules.
* `proper_toDocument`, `ofDocument_toDocument`: what keeps the rules is written without a key twice, and
  the check gives it back.
* `exists_ofDocument_iff_isWellFormed`: the metadata that documents hold, and a document for each.
-/

namespace SnippetAudit

open Yaml (Value Entries)

variable {α : Type}

/-! ## Specification -/

/-- A toggle decision has a label. -/
def Decision.IsWellFormed : Decision → Prop
  | .toggle label _ => label ≠ ""
  | .rego _ _ | .string _ _ => True

/-- The source of a query has a name. -/
def Items.IsWellFormed : Items → Prop
  | .list _ => True
  | .query _ _ name => name ≠ ""

/-- The type of a value in the default of an object parameter. -/
def DefaultValue.type : DefaultValue → ValueType
  | .string _ => .string
  | .strings _ => .setOfStrings
  | .numbers _ => .setOfNumbers

/-- A map of which every value has the type `type`. -/
structure ObjectDefault.IsWellFormed (type : ValueType) (d : ObjectDefault) : Prop where
  ascending : ObjectDefault.Ascending d
  type_eq : ∀ e ∈ d, e.2.type = type

/-- The choices of a string parameter come from a source with a name, and the values in the default of
    an object parameter have the type of its descriptor. -/
def ParameterKind.IsWellFormed : ParameterKind → Prop
  | .string _ items | .setOfStrings _ items => ∀ i ∈ items, i.IsWellFormed
  | .number _ | .setOfNumbers _ => True
  | .object default _ type _ => ∀ d ∈ default, ObjectDefault.IsWellFormed type d

/-- Every decision and every parameter keeps the rules. -/
structure Metadata.IsWellFormed (m : Metadata) : Prop where
  decision : ∀ ds ∈ m.decision, ∀ d ∈ ds, d.IsWellFormed
  parameters : ∀ ps ∈ m.parameters, ∀ p ∈ ps, p.kind.IsWellFormed

/-! ## Writing -/

/-- The fields that have a value. -/
def presentFields (fields : List (String × Option Value)) : List (String × Value) :=
  fields.filterMap fun field => field.2.map (field.1, ·)

/-- The mapping of the fields that have a value. -/
def Yaml.Value.ofFields (fields : List (String × Option Value)) : Value :=
  Schema.record (presentFields fields)

/-- The sequence of the items, each as it is written. -/
def Yaml.Value.ofItems (write : α → Value) (items : List α) : Value := .sequence (items.map write)

/-- A number, bit by bit. -/
def Yaml.Value.ofNumber (x : Binary64) : Value := .number (.float x)

/-- A switch with its key and its value. -/
def Toggle.toValue (t : Toggle) : Value :=
  .ofFields [("key", some (.string t.key)), ("value", some (.bool t.value))]

/-- A decision under its tag. -/
def Decision.toValue : Decision → Value
  | .toggle label toggles => .ofFields [("type", some (.string "toggle")),
      ("label", some (.string label)), ("toggles", some (.ofItems Toggle.toValue toggles))]
  | .rego key value => .ofFields [("type", some (.string "rego")), ("key", some (.string key)),
      ("value", some (.string value))]
  | .string key value => .ofFields [("type", some (.string "string")), ("key", some (.string key)),
      ("value", some (.string value))]

/-- The rule of a policy, under its one tag. -/
def Policy.ruleFields (p : Policy) : List (String × Option Value) :=
  [("type", some (.string "rego")), ("value", some (.string p.ruleValue))]

/-- A policy with its rule. -/
def Policy.toValue (p : Policy) : Value := .ofFields [("rule", some (.ofFields p.ruleFields))]

/-- Choices as a list, or a query with its source. -/
def Items.toValue : Items → Value
  | .list choices => .ofItems .string choices
  | .query text source name =>
    .ofFields [("query", some (.string text)), (source.key, some (.string name))]

/-- A value in the default of an object parameter. -/
def DefaultValue.toValue : DefaultValue → Value
  | .string s => .string s
  | .strings ss => .ofItems .string ss
  | .numbers xs => .ofItems .ofNumber xs

/-- The default of an object parameter, by its keys. -/
def ObjectDefault.toValue (d : ObjectDefault) : Value :=
  Schema.record (d.map fun e => (e.1, e.2.toValue))

/-- A description of keys, by its placeholder. -/
def keyDescriptorToValue (placeholder : String) : Value :=
  .ofFields [("placeholder", some (.string placeholder))]

/-- A description of values, by their type and its placeholder. -/
def valueDescriptorFields (type : ValueType) (placeholder : Option String) :
    List (String × Option Value) :=
  [("type", some (.string type.tag)), ("placeholder", placeholder.map .string)]

/-- The fields that a parameter has by its type. -/
def ParameterKind.fields : ParameterKind → List (String × Option Value)
  | .string default items => [("default", default.map .string), ("items", items.map Items.toValue)]
  | .setOfStrings default items =>
    [("default", default.map (.ofItems .string)), ("items", items.map Items.toValue)]
  | .number default => [("default", default.map .ofNumber)]
  | .setOfNumbers default => [("default", default.map (.ofItems .ofNumber))]
  | .object default keyPlaceholder type valuePlaceholder =>
    [("default", default.map ObjectDefault.toValue), ("key", keyPlaceholder.map keyDescriptorToValue),
      ("value", some (.ofFields (valueDescriptorFields type valuePlaceholder)))]

/-- The fields of a parameter, its tag first. -/
def Parameter.fields (p : Parameter) : List (String × Option Value) :=
  [("type", some (.string p.kind.type.tag)), ("name", some (.string p.name)),
    ("label", p.label.map .string), ("required", p.required.map .bool),
    ("placeholder", p.placeholder.map .string)] ++ p.kind.fields

/-- A parameter with its fields. -/
def Parameter.toValue (p : Parameter) : Value := .ofFields p.fields

/-- The fields of `schema`. -/
def Metadata.schemaFields (m : Metadata) : List (String × Option Value) :=
  [("decision", m.decision.map (.ofItems Decision.toValue)),
    ("parameters", m.parameters.map (.ofItems Parameter.toValue))]

/-- The mapping `schema`, unless it would be empty. -/
def Metadata.schema? (m : Metadata) : Option Value :=
  if (presentFields m.schemaFields).isEmpty then none else some (.ofFields m.schemaFields)

/-- The fields of a document. -/
def Metadata.fields (m : Metadata) : List (String × Option Value) :=
  [("title", some (.string m.title)), ("description", some (.string m.description)),
    ("schema", m.schema?), ("policy", m.policy.map Policy.toValue)]

/-- The document of metadata: every field that is there, under its name in the schema. -/
def Metadata.toDocument (m : Metadata) : Value := .ofFields m.fields

/-! ## Fields -/

section

variable {fields : List (String × Option Value)} {name : String}

theorem get?_ofFields_cons (field : String × Option Value) (fields : List (String × Option Value))
    (name : String) :
    (Value.ofFields (field :: fields)).entries.get? name =
      if field.1 = name then field.2.or ((Value.ofFields fields).entries.get? name)
      else (Value.ofFields fields).entries.get? name := by
  obtain ⟨key, value⟩ := field
  cases value with
  | none =>
    rw [Option.none_or, ite_self]
    rfl
  | some v =>
    have hCons : (Value.ofFields ((key, some v) :: fields)).entries =
        (.string key, v) :: (Value.ofFields fields).entries := rfl
    rw [hCons, Entries.get?]
    rfl

theorem get?_ofFields_of_not_mem (h : name ∉ fields.map Prod.fst) :
    (Value.ofFields fields).entries.get? name = none := by
  induction fields with
  | nil => rfl
  | cons field fields ih =>
    rw [List.map_cons, List.mem_cons, not_or] at h
    rw [get?_ofFields_cons, if_neg (Ne.symm h.1), ih h.2]

/-- A field that is written is found under its name, if no name stands twice. -/
theorem get?_ofFields {value : Option Value} (hNames : (fields.map Prod.fst).Nodup)
    (h : (name, value) ∈ fields) : (Value.ofFields fields).entries.get? name = value := by
  induction fields with
  | nil => cases h
  | cons field fields ih =>
    obtain ⟨hFirst, hRest⟩ := List.nodup_cons.mp hNames
    rw [get?_ofFields_cons]
    rcases List.mem_cons.mp h with rfl | h
    · rw [if_pos rfl, get?_ofFields_of_not_mem hFirst, Option.or_none]
    · have hName : name ∈ fields.map Prod.fst := List.mem_map_of_mem h
      have hNe : field.1 ≠ name := fun hSame => hFirst (hSame ▸ hName)
      rw [if_neg hNe, ih hRest h]

theorem presentFields_names_sublist (fields : List (String × Option Value)) :
    ((presentFields fields).map Prod.fst).Sublist (fields.map Prod.fst) := by
  induction fields with
  | nil => exact .slnil
  | cons field fields ih =>
    obtain ⟨key, value⟩ := field
    cases value with
    | none => exact ih.cons key
    | some v => exact ih.cons_cons key

/-- What is written has no key twice. -/
theorem proper_ofFields (hNames : (fields.map Prod.fst).Nodup)
    (h : ∀ field ∈ fields, ∀ v ∈ field.2, v.Proper) : (Value.ofFields fields).Proper := by
  refine Schema.proper_record (hNames.sublist (presentFields_names_sublist fields)) ?_
  intro field hField
  obtain ⟨written, hWritten, hValue⟩ := List.mem_filterMap.mp hField
  obtain ⟨v, hv, rfl⟩ := Option.map_eq_some_iff.mp hValue
  exact h written hWritten v hv

theorem proper_ofItems {write : α → Value} {items : List α} (h : ∀ a ∈ items, (write a).Proper) :
    (Value.ofItems write items).Proper :=
  .sequence (List.forall_mem_map.mpr h)

end

/-- A map is what its own entries stand for. -/
theorem ObjectDefault.collectsTo_self {d : ObjectDefault} (h : Ascending d) : CollectsTo d d := by
  have hKeys : (d.map Prod.fst).Nodup := nodup_keys_of_ascending h
  have hReverse : (d.reverse.map Prod.fst).Nodup := by
    rw [List.map_reverse, List.nodup_reverse]
    exact hKeys
  refine ⟨h, fun key => ?_⟩
  apply Option.ext
  intro value
  rw [← mem_iff_lookup_eq hKeys (e := (key, value)), ← mem_iff_lookup_eq hReverse (e := (key, value)),
    List.mem_reverse]

namespace Schema

variable {R : Value → α → Prop} {write : α → Value} {fields : List (String × Option Value)}
  {name : String}

theorem fieldIs_ofFields {v : Value} {a : α} (hNames : (fields.map Prod.fst).Nodup)
    (h : (name, some v) ∈ fields) (hRead : R v a) : FieldIs R (Value.ofFields fields).entries name a :=
  ⟨v, get?_ofFields hNames h, hRead⟩

/-- An optional field is read as it was written, if what is written is never null. -/
theorem optionalIs_ofFields {o : Option α} (hNames : (fields.map Prod.fst).Nodup)
    (h : (name, o.map write) ∈ fields) (hNull : ∀ a, (write a).isNull = false)
    (hRead : ∀ a ∈ o, R (write a) a) : OptionalIs R (Value.ofFields fields).entries name o := by
  have hField := get?_ofFields hNames h
  cases o with
  | none => exact .absent hField
  | some a =>
    have hSome : ¬ (write a).untag = .null := by
      rw [← isNull_iff, hNull]
      exact Bool.false_ne_true
    exact .given hField hSome (hRead a rfl)

theorem listIs_ofItems {items : List α} (h : ∀ a ∈ items, R (write a) a) :
    ListIs R (.ofItems write items) items := by
  refine ⟨items.map write, rfl, ?_⟩
  rw [List.forall₂_map_left_iff, List.forall₂_same]
  exact h

/-- What an optional field is read as was read from some value. -/
theorem OptionalIs.exists_of_mem {e : Entries} {o : Option α} {a : α} (h : OptionalIs R e name o)
    (ha : a ∈ o) : ∃ v, R v a := by
  cases h with
  | absent => cases ha
  | null => cases ha
  | given _ _ hRead =>
    cases ha
    exact ⟨_, hRead⟩

theorem ListIs.exists_of_mem {v : Value} {items : List α} {a : α} (h : ListIs R v items)
    (ha : a ∈ items) : ∃ w, R w a := by
  obtain ⟨ws, _, hItems⟩ := h
  obtain ⟨w, _, hRead⟩ := exists_mem_of_forall₂ hItems ha
  exact ⟨w, hRead⟩

theorem stringIs_string (s : String) : StringIs (.string s) s := rfl

theorem boolIs_bool (b : Bool) : BoolIs (.bool b) b := rfl

theorem mappingIs_ofFields (fields : List (String × Option Value)) :
    MappingIs (.ofFields fields) (Value.ofFields fields).entries := rfl

theorem numberIs_ofNumber (x : Binary64) : NumberIs (.ofNumber x) x := ⟨.float x, rfl, rfl⟩

theorem listIs_strings (ss : List String) : ListIs StringIs (.ofItems .string ss) ss :=
  listIs_ofItems fun s _ => stringIs_string s

theorem listIs_numbers (xs : List Binary64) : ListIs NumberIs (.ofItems .ofNumber xs) xs :=
  listIs_ofItems fun x _ => numberIs_ofNumber x

/-! ## Decisions and policies -/

theorem toggleIs_toValue (t : Toggle) : ToggleIs t.toValue t :=
  .entry (mappingIs_ofFields _) (fieldIs_ofFields (by simp) (by simp) (stringIs_string t.key))
    (fieldIs_ofFields (by simp) (by simp) (boolIs_bool t.value))

/-- A decision with a label is read as it was written. -/
theorem decisionIs_toValue {d : Decision} (h : d.IsWellFormed) : DecisionIs d.toValue d := by
  cases d with
  | toggle label toggles =>
    have hToggles : ListIs ToggleIs (.ofItems Toggle.toValue toggles) toggles :=
      listIs_ofItems fun t _ => toggleIs_toValue t
    exact .toggle (mappingIs_ofFields _) (fieldIs_ofFields (by simp) (by simp) (stringIs_string _))
      (fieldIs_ofFields (by simp) (by simp) (stringIs_string label)) h
      (fieldIs_ofFields (by simp) (by simp) hToggles)
  | rego key value =>
    exact .rego (mappingIs_ofFields _) (fieldIs_ofFields (by simp) (by simp) (stringIs_string _))
      (fieldIs_ofFields (by simp) (by simp) (stringIs_string key))
      (fieldIs_ofFields (by simp) (by simp) (stringIs_string value))
  | string key value =>
    exact .string (mappingIs_ofFields _) (fieldIs_ofFields (by simp) (by simp) (stringIs_string _))
      (fieldIs_ofFields (by simp) (by simp) (stringIs_string key))
      (fieldIs_ofFields (by simp) (by simp) (stringIs_string value))

theorem DecisionIs.isWellFormed {v : Value} {d : Decision} (h : DecisionIs v d) : d.IsWellFormed := by
  cases h with
  | rego => trivial
  | string => trivial
  | toggle _ _ _ hLabel _ => exact hLabel

theorem policyIs_toValue (p : Policy) : PolicyIs p.toValue p := by
  have hRule := mappingIs_ofFields p.ruleFields
  have hNames : (p.ruleFields.map Prod.fst).Nodup := by simp [Policy.ruleFields]
  exact .rego (mappingIs_ofFields _) (fieldIs_ofFields (by simp) (by simp) hRule)
    (fieldIs_ofFields hNames List.mem_cons_self (stringIs_string "rego"))
    (fieldIs_ofFields hNames (by simp [Policy.ruleFields]) (stringIs_string p.ruleValue))

/-! ## Choices -/

theorem itemsIs_toValue {items : Items} (h : items.IsWellFormed) : ItemsIs items.toValue items := by
  cases items with
  | list choices => exact .list (listIs_strings choices)
  | query text source name =>
    have hNames : ([("query", some (Value.string text)), (source.key, some (.string name))].map
        Prod.fst).Nodup := by
      cases source <;> simp [QuerySource.key]
    refine .query (mappingIs_ofFields _) (fieldIs_ofFields hNames (by simp) (stringIs_string text))
      (fieldIs_ofFields hNames (by simp) (stringIs_string name)) h ?_
    -- no other source is written
    intro other hOther w hw
    rw [get?_ofFields_of_not_mem] at hw
    · cases hw
    · cases source <;> cases other <;> simp_all [QuerySource.key]

theorem ItemsIs.isWellFormed {v : Value} {items : Items} (h : ItemsIs v items) :
    items.IsWellFormed := by
  cases h with
  | list => trivial
  | query _ _ _ hName _ => exact hName

/-! ## Defaults of object parameters -/

theorem defaultValueIs_toValue (d : DefaultValue) : DefaultValueIs d.type d.toValue d := by
  cases d with
  | string s => exact .string (stringIs_string s)
  | strings ss => exact .strings (listIs_strings ss)
  | numbers xs => exact .numbers (listIs_numbers xs)

theorem DefaultValueIs.type_eq {type : ValueType} {v : Value} {d : DefaultValue}
    (h : DefaultValueIs type v d) : d.type = type := by
  cases h <;> rfl

theorem objectDefaultIs_toValue {type : ValueType} {d : ObjectDefault}
    (h : ObjectDefault.IsWellFormed type d) : ObjectDefaultIs type d.toValue d := by
  have hMapping : MappingIs d.toValue (d.map fun e => (.string e.1, e.2.toValue)) := by
    unfold MappingIs ObjectDefault.toValue record
    rw [List.map_map]
    rfl
  refine .mapping hMapping ?_ (ObjectDefault.collectsTo_self h.ascending)
  rw [List.forall₂_map_left_iff, List.forall₂_same]
  intro e he
  refine ⟨rfl, ?_⟩
  rw [← h.type_eq e he]
  exact defaultValueIs_toValue e.2

theorem ObjectDefaultIs.isWellFormed {type : ValueType} {v : Value} {d : ObjectDefault}
    (h : ObjectDefaultIs type v d) : d.IsWellFormed type := by
  cases h with
  | @mapping _ typed _ _ hTyped hCollects =>
    refine ⟨hCollects.ascending, fun e he => ?_⟩
    have hKeys := ObjectDefault.nodup_keys_of_ascending hCollects.ascending
    have hLookup : typed.reverse.lookup e.1 = some e.2 := by
      rw [← hCollects.lookup_eq]
      exact (ObjectDefault.mem_iff_lookup_eq hKeys).mp he
    obtain ⟨front, back, hSplit, _⟩ := List.lookup_eq_some_iff.mp hLookup
    have hMem : e ∈ typed.reverse := by
      rw [hSplit]
      exact List.mem_append_right _ List.mem_cons_self
    obtain ⟨_, _, _, hValue⟩ := exists_mem_of_forall₂ hTyped (List.mem_reverse.mp hMem)
    exact hValue.type_eq

/-! ## Parameters -/

theorem nodup_fields (p : Parameter) : (p.fields.map Prod.fst).Nodup := by
  unfold Parameter.fields
  cases p.kind <;> simp [ParameterKind.fields]

theorem keyDescriptorIs_toValue (placeholder : String) :
    KeyDescriptorIs (keyDescriptorToValue placeholder) placeholder :=
  .mapping (mappingIs_ofFields _)
    (fieldIs_ofFields (by simp) List.mem_cons_self (stringIs_string placeholder))

theorem isNull_toValue (items : Items) : items.toValue.isNull = false := by
  cases items <;> rfl

/-- Among the fields of a parameter those of its type are read as they were written. -/
theorem kindIs_ofFields {kind : ParameterKind} (h : kind.IsWellFormed)
    (hNames : (fields.map Prod.fst).Nodup) (hTag : ("type", some (.string kind.type.tag)) ∈ fields)
    (hFields : ∀ field ∈ kind.fields, field ∈ fields) :
    KindIs (Value.ofFields fields).entries kind := by
  have hType : FieldIs StringIs (Value.ofFields fields).entries "type" kind.type.tag :=
    fieldIs_ofFields hNames hTag (stringIs_string _)
  cases kind with
  | string default items =>
    have hDefault := hFields ("default", default.map .string) (by simp [ParameterKind.fields])
    have hItems := hFields ("items", items.map Items.toValue) (by simp [ParameterKind.fields])
    exact .string hType
      (optionalIs_ofFields hNames hDefault (fun _ => rfl) fun s _ => stringIs_string s)
      (optionalIs_ofFields hNames hItems isNull_toValue fun i hi => itemsIs_toValue (h i hi))
  | setOfStrings default items =>
    have hDefault := hFields ("default", default.map (.ofItems .string)) (by simp [ParameterKind.fields])
    have hItems := hFields ("items", items.map Items.toValue) (by simp [ParameterKind.fields])
    exact .setOfStrings hType
      (optionalIs_ofFields hNames hDefault (fun _ => rfl) fun ss _ => listIs_strings ss)
      (optionalIs_ofFields hNames hItems isNull_toValue fun i hi => itemsIs_toValue (h i hi))
  | number default =>
    have hDefault := hFields ("default", default.map .ofNumber) (by simp [ParameterKind.fields])
    exact .number hType
      (optionalIs_ofFields hNames hDefault (fun _ => rfl) fun x _ => numberIs_ofNumber x)
  | setOfNumbers default =>
    have hDefault := hFields ("default", default.map (.ofItems .ofNumber))
      (by simp [ParameterKind.fields])
    exact .setOfNumbers hType
      (optionalIs_ofFields hNames hDefault (fun _ => rfl) fun xs _ => listIs_numbers xs)
  | object default keyPlaceholder type valuePlaceholder =>
    have hDefault := hFields ("default", default.map ObjectDefault.toValue)
      (by simp [ParameterKind.fields])
    have hKey := hFields ("key", keyPlaceholder.map keyDescriptorToValue)
      (by simp [ParameterKind.fields])
    have hValue := hFields ("value", some (.ofFields (valueDescriptorFields type valuePlaceholder)))
      (by simp [ParameterKind.fields])
    have hValueNames : ((valueDescriptorFields type valuePlaceholder).map Prod.fst).Nodup := by
      simp [valueDescriptorFields]
    exact .object hType
      (optionalIs_ofFields hNames hKey (fun _ => rfl) fun s _ => keyDescriptorIs_toValue s)
      (fieldIs_ofFields hNames hValue (mappingIs_ofFields _))
      (optionalIs_ofFields hValueNames (by simp [valueDescriptorFields]) (fun _ => rfl)
        fun s _ => stringIs_string s)
      (fieldIs_ofFields hValueNames List.mem_cons_self (stringIs_string _))
      (optionalIs_ofFields hNames hDefault (fun _ => rfl) fun d hd => objectDefaultIs_toValue (h d hd))

theorem parameterIs_toValue {p : Parameter} (h : p.kind.IsWellFormed) : ParameterIs p.toValue p := by
  have hNames : (p.fields.map Prod.fst).Nodup := nodup_fields p
  exact .mapping (mappingIs_ofFields _)
    (fieldIs_ofFields hNames (by simp [Parameter.fields]) (stringIs_string p.name))
    (optionalIs_ofFields hNames (by simp [Parameter.fields]) (fun _ => rfl) fun s _ => stringIs_string s)
    (optionalIs_ofFields hNames (by simp [Parameter.fields]) (fun _ => rfl) fun b _ => boolIs_bool b)
    (optionalIs_ofFields hNames (by simp [Parameter.fields]) (fun _ => rfl) fun s _ => stringIs_string s)
    (kindIs_ofFields h hNames List.mem_cons_self fun _ hField => List.mem_append_right _ hField)

theorem KindIs.isWellFormed {e : Entries} {kind : ParameterKind} (h : KindIs e kind) :
    kind.IsWellFormed := by
  cases h with
  | string _ _ hItems =>
    intro i hi
    obtain ⟨v, hv⟩ := hItems.exists_of_mem hi
    exact hv.isWellFormed
  | setOfStrings _ _ hItems =>
    intro i hi
    obtain ⟨v, hv⟩ := hItems.exists_of_mem hi
    exact hv.isWellFormed
  | number => trivial
  | setOfNumbers => trivial
  | object _ _ _ _ _ hDefault =>
    intro d hd
    obtain ⟨v, hv⟩ := hDefault.exists_of_mem hd
    exact hv.isWellFormed

theorem ParameterIs.isWellFormed {v : Value} {p : Parameter} (h : ParameterIs v p) :
    p.kind.IsWellFormed := by
  cases h with
  | mapping _ _ _ _ _ hKind => exact hKind.isWellFormed

/-! ## Documents -/

theorem nodup_fields_metadata (m : Metadata) : (m.fields.map Prod.fst).Nodup := by
  simp [Metadata.fields]

/-- A `schema` without entries counts as one that is not there. -/
theorem schemaIs_toDocument (m : Metadata) :
    SchemaIs m.toDocument.entries (Value.ofFields m.schemaFields).entries := by
  have hSchema : Entries.get? m.toDocument.entries "schema" = m.schema? :=
    get?_ofFields (nodup_fields_metadata m) (by simp [Metadata.fields])
  rw [schemaIs_iff, map_entries_present?_eq, hSchema, Metadata.schema?]
  split
  · rename_i hEmpty
    have hEntries : (Value.ofFields m.schemaFields).entries =
        (presentFields m.schemaFields).map fun field => (.string field.1, field.2) := rfl
    rw [hEntries, List.isEmpty_iff.mp hEmpty]
    rfl
  · rfl

/-- A document is accepted iff its fields are read as those of the metadata. -/
theorem ofDocument_eq_ok_iff_fields {document : Value} {m : Metadata} :
    Metadata.ofDocument document = .ok m ↔
      FieldIs StringIs document.entries "title" m.title ∧
      FieldIs StringIs document.entries "description" m.description ∧
      ∃ schema, SchemaIs document.entries schema ∧
        OptionalIs (ListIs DecisionIs) schema "decision" m.decision ∧
        OptionalIs PolicyIs document.entries "policy" m.policy ∧
        OptionalIs (ListIs ParameterIs) schema "parameters" m.parameters := by
  unfold Metadata.ofDocument
  simp only [bind_eq_ok_iff, require_eq_ok_iff, pure_eq_ok_iff,
    get?_bind_eq_some_iff asString?_eq_some_iff,
    optional_present?_eq_ok_iff checkDecisions_eq_ok_iff,
    optional_present?_eq_ok_iff checkPolicy_eq_ok_iff,
    optional_present?_eq_ok_iff checkParameters_eq_ok_iff, schemaIs_iff]
  constructor
  · rintro ⟨title, hTitle, description, hDescription, decision, hDecision, policy, hPolicy,
      parameters, hParameters, rfl⟩
    exact ⟨hTitle, hDescription, _, rfl, hDecision, hPolicy, hParameters⟩
  · rintro ⟨hTitle, hDescription, _, rfl, hDecision, hPolicy, hParameters⟩
    exact ⟨_, hTitle, _, hDescription, _, hDecision, _, hPolicy, _, hParameters, rfl⟩

/-- What a document holds keeps the rules. -/
theorem isWellFormed_of_ofDocument {document : Value} {m : Metadata}
    (h : Metadata.ofDocument document = .ok m) : m.IsWellFormed := by
  obtain ⟨_, _, schema, _, hDecision, _, hParameters⟩ := ofDocument_eq_ok_iff_fields.mp h
  constructor
  · intro ds hds d hd
    obtain ⟨v, hv⟩ := hDecision.exists_of_mem hds
    obtain ⟨w, hw⟩ := hv.exists_of_mem hd
    exact hw.isWellFormed
  · intro ps hps p hp
    obtain ⟨v, hv⟩ := hParameters.exists_of_mem hps
    obtain ⟨w, hw⟩ := hv.exists_of_mem hp
    exact hw.isWellFormed

/-! ## Keys -/

theorem proper_strings (ss : List String) : (Value.ofItems .string ss).Proper :=
  proper_ofItems fun s _ => .string s

theorem proper_numbers (xs : List Binary64) : (Value.ofItems .ofNumber xs).Proper :=
  proper_ofItems fun x _ => .number (.float x)

/-- What is written of an optional field has no key twice. -/
theorem proper_of_mem_map {o : Option α} (h : ∀ a ∈ o, (write a).Proper) :
    ∀ v ∈ o.map write, v.Proper := by
  intro v hv
  obtain ⟨a, ha, rfl⟩ := Option.map_eq_some_iff.mp hv
  exact h a ha

theorem proper_toggle (t : Toggle) : t.toValue.Proper :=
  proper_ofFields (by simp) (by simp [Value.Proper.string, Value.Proper.bool])

theorem proper_decision (d : Decision) : d.toValue.Proper := by
  cases d with
  | toggle label toggles =>
    have hToggles : (Value.ofItems Toggle.toValue toggles).Proper :=
      proper_ofItems fun t _ => proper_toggle t
    exact proper_ofFields (by simp) (by simp [Value.Proper.string, hToggles])
  | rego | string => exact proper_ofFields (by simp) (by simp [Value.Proper.string])

theorem proper_policy (p : Policy) : p.toValue.Proper := by
  have hRule : (Value.ofFields p.ruleFields).Proper :=
    proper_ofFields (by simp [Policy.ruleFields]) (by simp [Policy.ruleFields, Value.Proper.string])
  exact proper_ofFields (by simp) (by simp [hRule])

theorem proper_items (items : Items) : items.toValue.Proper := by
  cases items with
  | list choices => exact proper_strings choices
  | query text source name =>
    refine proper_ofFields ?_ (by simp [Value.Proper.string])
    cases source <;> simp [QuerySource.key]

theorem proper_defaultValue (d : DefaultValue) : d.toValue.Proper := by
  cases d with
  | string s => exact .string s
  | strings ss => exact proper_strings ss
  | numbers xs => exact proper_numbers xs

theorem proper_objectDefault {d : ObjectDefault} (h : d.Ascending) : d.toValue.Proper := by
  refine proper_record ?_ (List.forall_mem_map.mpr fun e _ => proper_defaultValue e.2)
  rw [List.map_map]
  exact ObjectDefault.nodup_keys_of_ascending h

theorem proper_kindFields {kind : ParameterKind} (h : kind.IsWellFormed) :
    ∀ field ∈ kind.fields, ∀ v ∈ field.2, v.Proper := by
  cases kind with
  | string default items =>
    exact List.forall_mem_cons.mpr ⟨proper_of_mem_map fun s _ => .string s,
      List.forall_mem_singleton.mpr (proper_of_mem_map fun i _ => proper_items i)⟩
  | setOfStrings default items =>
    exact List.forall_mem_cons.mpr ⟨proper_of_mem_map fun ss _ => proper_strings ss,
      List.forall_mem_singleton.mpr (proper_of_mem_map fun i _ => proper_items i)⟩
  | number default =>
    exact List.forall_mem_singleton.mpr (proper_of_mem_map fun x _ => .number (.float x))
  | setOfNumbers default =>
    exact List.forall_mem_singleton.mpr (proper_of_mem_map fun xs _ => proper_numbers xs)
  | object default keyPlaceholder type valuePlaceholder =>
    have hKey (s : String) : (keyDescriptorToValue s).Proper :=
      proper_ofFields (by simp) (by simp [Value.Proper.string])
    have hValue : (Value.ofFields (valueDescriptorFields type valuePlaceholder)).Proper := by
      refine proper_ofFields (by simp [valueDescriptorFields]) ?_
      exact List.forall_mem_cons.mpr ⟨by simp [Value.Proper.string],
        List.forall_mem_singleton.mpr (proper_of_mem_map fun s _ => .string s)⟩
    refine List.forall_mem_cons.mpr ⟨?_, List.forall_mem_cons.mpr
      ⟨proper_of_mem_map fun s _ => hKey s, by simp [hValue]⟩⟩
    exact proper_of_mem_map fun d hd => proper_objectDefault (h d hd).ascending

theorem proper_parameter {p : Parameter} (h : p.kind.IsWellFormed) : p.toValue.Proper := by
  refine proper_ofFields (nodup_fields p) (List.forall_mem_append.mpr ⟨?_, proper_kindFields h⟩)
  simp only [List.forall_mem_cons]
  exact ⟨by simp [Value.Proper.string], by simp [Value.Proper.string],
    proper_of_mem_map fun s _ => .string s, proper_of_mem_map fun b _ => .bool b,
    proper_of_mem_map fun s _ => .string s, by simp⟩

/-- What keeps the rules is written without a key twice. -/
theorem proper_toDocument {m : Metadata} (h : m.IsWellFormed) : m.toDocument.Proper := by
  have hSchema : (Value.ofFields m.schemaFields).Proper := by
    refine proper_ofFields (by simp [Metadata.schemaFields]) (List.forall_mem_cons.mpr ⟨?_,
      List.forall_mem_singleton.mpr ?_⟩)
    · exact proper_of_mem_map fun ds _ => proper_ofItems fun d _ => proper_decision d
    · exact proper_of_mem_map fun ps hps => proper_ofItems fun p hp =>
        proper_parameter (h.parameters ps hps p hp)
  refine proper_ofFields (nodup_fields_metadata m) ?_
  simp only [Metadata.fields, List.forall_mem_cons]
  refine ⟨by simp [Value.Proper.string], by simp [Value.Proper.string], ?_,
    proper_of_mem_map fun p _ => proper_policy p, by simp⟩
  intro v hv
  rw [Metadata.schema?] at hv
  split at hv
  · cases hv
  · cases hv
    exact hSchema

/-- Metadata that keeps the rules is read as it was written. -/
theorem ofDocument_toDocument {m : Metadata} (h : m.IsWellFormed) :
    Metadata.ofDocument m.toDocument = .ok m := by
  have hNames : (m.fields.map Prod.fst).Nodup := nodup_fields_metadata m
  have hSchemaNames : (m.schemaFields.map Prod.fst).Nodup := by simp [Metadata.schemaFields]
  have hDecision : OptionalIs (ListIs DecisionIs) (Value.ofFields m.schemaFields).entries "decision"
      m.decision := by
    refine optionalIs_ofFields hSchemaNames List.mem_cons_self (fun _ => rfl) fun ds hds => ?_
    exact listIs_ofItems fun d hd => decisionIs_toValue (h.decision ds hds d hd)
  have hParameters : OptionalIs (ListIs ParameterIs) (Value.ofFields m.schemaFields).entries "parameters"
      m.parameters := by
    have hField : ("parameters", m.parameters.map (Value.ofItems Parameter.toValue)) ∈ m.schemaFields :=
      List.mem_cons_of_mem _ List.mem_cons_self
    refine optionalIs_ofFields hSchemaNames hField (fun _ => rfl) fun ps hps => ?_
    exact listIs_ofItems fun p hp => parameterIs_toValue (h.parameters ps hps p hp)
  have hPolicy : OptionalIs PolicyIs m.toDocument.entries "policy" m.policy :=
    optionalIs_ofFields hNames (by simp [Metadata.fields]) (fun _ => rfl) fun p _ => policyIs_toValue p
  exact ofDocument_eq_ok_iff_fields.mpr
    ⟨fieldIs_ofFields hNames List.mem_cons_self (stringIs_string m.title),
      fieldIs_ofFields hNames (by simp [Metadata.fields]) (stringIs_string m.description),
      _, schemaIs_toDocument m, hDecision, hPolicy, hParameters⟩

end Schema

open Schema in
/-- The metadata that documents hold is what keeps the rules. Just that is written as a document without a
    key twice which gives it back. -/
theorem Metadata.exists_ofDocument_iff_isWellFormed (m : Metadata) :
    ((∃ document, Metadata.ofDocument document = .ok m) ↔ m.IsWellFormed) ∧
      (m.toDocument.Proper ∧ Metadata.ofDocument m.toDocument = .ok m ↔ m.IsWellFormed) := by
  refine ⟨⟨?_, ?_⟩, ⟨?_, ?_⟩⟩
  · rintro ⟨document, h⟩
    exact isWellFormed_of_ofDocument h
  · intro h
    exact ⟨m.toDocument, ofDocument_toDocument h⟩
  · rintro ⟨_, h⟩
    exact isWellFormed_of_ofDocument h
  · intro h
    exact ⟨proper_toDocument h, ofDocument_toDocument h⟩

end SnippetAudit
