import SnippetAudit.Proofs.Schema.ObjectDefault
import SnippetAudit.Proofs.Schema.Reads

/-!
# Conformance to the snippet schema

What it means for a document to keep the snippet schema and to hold some metadata, stated
part by part and without any order of checking: `Conforms document m` says that every field
of `m` is the document's field of the same place, and that nothing the schema asks for is
missing.

Results:
* `ofDocument_eq_ok_iff_conforms`: a document is accepted with the metadata `m` iff it
  conforms and holds `m`.
* `checkDefaultEntries_eq_ok_iff`: the entries in the default of an object parameter are typed one
  by one and collected.
-/

namespace SnippetAudit

open Yaml (Value Entries)

namespace Schema

variable {α : Type}

/-! ## Specification -/

/-- A switch of a toggle decision: a mapping with a string `key` and a boolean `value`. -/
inductive ToggleIs : Value → Toggle → Prop
  | entry {v : Value} {e : Entries} {key : String} {on : Bool} (hv : MappingIs v e)
    (hKey : FieldIs StringIs e "key" key) (hOn : FieldIs BoolIs e "value" on) :
    ToggleIs v ⟨key, on⟩

/-- An entry of `schema.decision`: one constructor for each tag. -/
inductive DecisionIs : Value → Decision → Prop
  | rego {v : Value} {e : Entries} {key value : String} (hv : MappingIs v e)
    (hType : FieldIs StringIs e "type" "rego") (hKey : FieldIs StringIs e "key" key)
    (hValue : FieldIs StringIs e "value" value) : DecisionIs v (.rego key value)
  | string {v : Value} {e : Entries} {key value : String} (hv : MappingIs v e)
    (hType : FieldIs StringIs e "type" "string") (hKey : FieldIs StringIs e "key" key)
    (hValue : FieldIs StringIs e "value" value) : DecisionIs v (.string key value)
  | toggle {v : Value} {e : Entries} {label : String} {toggles : List Toggle} (hv : MappingIs v e)
    (hType : FieldIs StringIs e "type" "toggle") (hLabel : FieldIs StringIs e "label" label)
    (hNonempty : label ≠ "") (hToggles : FieldIs (ListIs ToggleIs) e "toggles" toggles) :
    DecisionIs v (.toggle label toggles)

/-- `policy`: a mapping whose `rule` has the type `rego` and a string `value`. -/
inductive PolicyIs : Value → Policy → Prop
  | rego {v : Value} {e rule : Entries} {body : String} (hv : MappingIs v e)
    (hRule : FieldIs MappingIs e "rule" rule) (hType : FieldIs StringIs rule "type" "rego")
    (hBody : FieldIs StringIs rule "value" body) : PolicyIs v ⟨body⟩

/-- What does not count as set: null, `false`, zero, what is not a number, the empty string. -/
inductive Unset (v : Value) : Prop
  | null (h : v.untag = .null)
  | no (h : v.untag = .bool false)
  | zero {n : Yaml.Number} (h : v.untag = .number n) (hn : n.toBinary64.isZero = true)
  | notANumber {n : Yaml.Number} (h : v.untag = .number n) (hn : n.toBinary64.isNaN = true)
  | empty (h : v.untag = .string "")

/-- The field `items`: a list of strings, or a query with exactly one source that is set, and
    that one a string. -/
inductive ItemsIs : Value → Items → Prop
  | list {v : Value} {choices : List String} (hv : ListIs StringIs v choices) :
    ItemsIs v (.list choices)
  | query {v : Value} {e : Entries} {text name : String} {source : QuerySource}
    (hv : MappingIs v e) (hText : FieldIs StringIs e "query" text)
    (hName : FieldIs StringIs e source.key name) (hNonempty : name ≠ "")
    (hOnly : ∀ other, other ≠ source → ∀ w, e.get? other.key = some w → Unset w) :
    ItemsIs v (.query text source name)

/-- A value in the default of an object parameter, of the type its descriptor asks for. -/
inductive DefaultValueIs : ValueType → Value → DefaultValue → Prop
  | string {v : Value} {s : String} (h : StringIs v s) : DefaultValueIs .string v (.string s)
  | strings {v : Value} {ss : List String} (h : ListIs StringIs v ss) :
    DefaultValueIs .setOfStrings v (.strings ss)
  | numbers {v : Value} {xs : List Binary64} (h : ListIs NumberIs v xs) :
    DefaultValueIs .setOfNumbers v (.numbers xs)

/-- An entry in the default of an object parameter: a scalar key as its text, and a value. -/
def DefaultEntryIs (type : ValueType) (e : Value × Value) (t : String × DefaultValue) : Prop :=
  e.1.keyText? = some t.1 ∧ DefaultValueIs type e.2 t.2

/-- The default of an object parameter whose values have the type `type`. -/
inductive ObjectDefaultIs (type : ValueType) : Value → ObjectDefault → Prop
  | mapping {v : Value} {e : Entries} {typed : List (String × DefaultValue)} {d : ObjectDefault}
    (hv : MappingIs v e) (hTyped : List.Forall₂ (DefaultEntryIs type) e typed)
    (hd : ObjectDefault.CollectsTo typed d) : ObjectDefaultIs type v d

/-- The descriptor of an object parameter's keys: a mapping with a string `placeholder`. -/
inductive KeyDescriptorIs : Value → String → Prop
  | mapping {v : Value} {e : Entries} {placeholder : String} (hv : MappingIs v e)
    (hPlaceholder : FieldIs StringIs e "placeholder" placeholder) : KeyDescriptorIs v placeholder

/-- What a parameter carries by its type: one constructor for each tag. -/
inductive KindIs (e : Entries) : ParameterKind → Prop
  | string {default : Option String} {items : Option Items}
    (hType : FieldIs StringIs e "type" "string") (hDefault : OptionalIs StringIs e "default" default)
    (hItems : OptionalIs ItemsIs e "items" items) : KindIs e (.string default items)
  | setOfStrings {default : Option (List String)} {items : Option Items}
    (hType : FieldIs StringIs e "type" "set_of_strings")
    (hDefault : OptionalIs (ListIs StringIs) e "default" default)
    (hItems : OptionalIs ItemsIs e "items" items) : KindIs e (.setOfStrings default items)
  | number {default : Option Binary64} (hType : FieldIs StringIs e "type" "number")
    (hDefault : OptionalIs NumberIs e "default" default) : KindIs e (.number default)
  | setOfNumbers {default : Option (List Binary64)}
    (hType : FieldIs StringIs e "type" "set_of_numbers")
    (hDefault : OptionalIs (ListIs NumberIs) e "default" default) : KindIs e (.setOfNumbers default)
  | object {default : Option ObjectDefault} {keyPlaceholder valuePlaceholder : Option String}
    {value : Entries} {type : ValueType} (hType : FieldIs StringIs e "type" "object")
    (hKey : OptionalIs KeyDescriptorIs e "key" keyPlaceholder)
    (hValue : FieldIs MappingIs e "value" value)
    (hValuePlaceholder : OptionalIs StringIs value "placeholder" valuePlaceholder)
    (hValueType : FieldIs StringIs value "type" type.tag)
    (hDefault : OptionalIs (ObjectDefaultIs type) e "default" default) :
    KindIs e (.object default keyPlaceholder type valuePlaceholder)

/-- An entry of `schema.parameters`. -/
inductive ParameterIs : Value → Parameter → Prop
  | mapping {v : Value} {e : Entries} {p : Parameter} (hv : MappingIs v e)
    (hName : FieldIs StringIs e "name" p.name) (hLabel : OptionalIs StringIs e "label" p.label)
    (hRequired : OptionalIs BoolIs e "required" p.required)
    (hPlaceholder : OptionalIs StringIs e "placeholder" p.placeholder) (hKind : KindIs e p.kind) :
    ParameterIs v p

/-- The entries of `schema`, which counts as empty when it is no mapping. -/
inductive SchemaIs (root : Entries) : Entries → Prop
  | mapping {e : Entries} (h : FieldIs MappingIs root "schema" e) : SchemaIs root e
  | other (h : ∀ e, ¬ FieldIs MappingIs root "schema" e) : SchemaIs root []

/-- The document keeps the snippet schema, and `m` is what it holds, field by field. -/
inductive Conforms (document : Value) (m : Metadata) : Prop
  | mapping {root schema : Entries} (hRoot : MappingIs document root)
    (hTitle : FieldIs StringIs root "title" m.title)
    (hDescription : FieldIs StringIs root "description" m.description)
    (hSchema : SchemaIs root schema)
    (hDecision : OptionalIs (ListIs DecisionIs) schema "decision" m.decision)
    (hPolicy : OptionalIs PolicyIs root "policy" m.policy)
    (hParameters : OptionalIs (ListIs ParameterIs) schema "parameters" m.parameters)

/-! ## Decision -/

theorem unset_iff {v : Value} : Unset v ↔ v.isTruthy = false := by
  unfold Value.isTruthy
  constructor
  · rintro (h | h | ⟨h, hn⟩ | ⟨h, hn⟩ | h) <;> simp_all
  · intro h
    split at h
    · exact .null ‹_›
    · subst h
      exact .no ‹_›
    · rw [Bool.and_eq_false_iff, Bool.not_eq_false', Bool.not_eq_false'] at h
      rcases h with h | h
      · exact .zero ‹_› h
      · exact .notANumber ‹_› h
    · rw [decide_eq_false_iff_not, not_not] at h
      subst h
      exact .empty ‹_›
    · cases h

theorem isTruthy_iff_of_stringIs {v : Value} {s : String} (h : StringIs v s) :
    v.isTruthy = true ↔ s ≠ "" := by
  unfold StringIs at h
  simp [Value.isTruthy, h]

theorem checkToggleEntry_eq_ok_iff {place : Place} {v : Value} {t : Toggle} :
    checkToggleEntry place v = .ok t ↔ ToggleIs v t := by
  unfold checkToggleEntry
  simp only [bind_eq_ok_iff, require_eq_ok_iff, pure_eq_ok_iff, asMapping?_eq_some_iff,
    get?_bind_eq_some_iff asString?_eq_some_iff, get?_bind_eq_some_iff asBool?_eq_some_iff]
  constructor
  · rintro ⟨e, hv, key, hKey, on, hOn, rfl⟩
    exact .entry hv hKey hOn
  · rintro ⟨hv, hKey, hOn⟩
    exact ⟨_, hv, _, hKey, _, hOn, rfl⟩

theorem checkKeyValue_eq_ok_iff {place : Place} {tag : String} {e : Entries} {kv : String × String} :
    checkKeyValue place tag e = .ok kv ↔
      FieldIs StringIs e "key" kv.1 ∧ FieldIs StringIs e "value" kv.2 := by
  obtain ⟨key, value⟩ := kv
  rw [← get?_bind_eq_some_iff asString?_eq_some_iff, ← get?_bind_eq_some_iff asString?_eq_some_iff]
  unfold checkKeyValue
  split <;> simp_all

theorem checkToggle_eq_ok_iff {place : Place} {e : Entries} {d : Decision} :
    checkToggle place e = .ok d ↔
      ∃ label toggles, FieldIs StringIs e "label" label ∧ label ≠ "" ∧
        FieldIs (ListIs ToggleIs) e "toggles" toggles ∧ d = .toggle label toggles := by
  have hEach {items : List Value} {toggles : List Toggle} :
      checkEach (fun i => checkToggleEntry (place ++ [.field "toggles", .item i])) 0 items = .ok toggles
        ↔ List.Forall₂ ToggleIs items toggles := by
    apply checkEach_eq_ok_iff
    intro i v t
    exact checkToggleEntry_eq_ok_iff
  unfold checkToggle
  simp only [bind_eq_ok_iff, require_eq_ok_iff, pure_eq_ok_iff, Option.filter_eq_some_iff,
    asString?_eq_some_iff, Option.bind_eq_some_iff, asSequence?_eq_some_iff, hEach]
  constructor
  · rintro ⟨v, ⟨hv, hTruthy⟩, label, hLabel, items, ⟨w, hw, hItems⟩, toggles, hToggles, rfl⟩
    exact ⟨label, toggles, ⟨v, hv, hLabel⟩, (isTruthy_iff_of_stringIs hLabel).mp hTruthy,
      ⟨w, hw, items, hItems, hToggles⟩, rfl⟩
  · rintro ⟨label, toggles, ⟨v, hv, hLabel⟩, hNonempty, ⟨w, hw, items, hItems, hToggles⟩, rfl⟩
    exact ⟨v, ⟨hv, (isTruthy_iff_of_stringIs hLabel).mpr hNonempty⟩, label, hLabel, items,
      ⟨w, hw, hItems⟩, toggles, hToggles, rfl⟩

theorem checkDecision_eq_ok_iff {place : Place} {v : Value} {d : Decision} :
    checkDecision place v = .ok d ↔ DecisionIs v d := by
  unfold checkDecision
  simp only [bind_eq_ok_iff, require_eq_ok_iff, asMapping?_eq_some_iff]
  constructor
  · rintro ⟨e, hv, h⟩
    split at h
    · have hType := (get?_bind_eq_some_iff asString?_eq_some_iff).mp ‹_›
      obtain ⟨kv, hkv, rfl⟩ := map_eq_ok_iff.mp h
      obtain ⟨hKey, hValue⟩ := checkKeyValue_eq_ok_iff.mp hkv
      exact .rego hv hType hKey hValue
    · have hType := (get?_bind_eq_some_iff asString?_eq_some_iff).mp ‹_›
      obtain ⟨kv, hkv, rfl⟩ := map_eq_ok_iff.mp h
      obtain ⟨hKey, hValue⟩ := checkKeyValue_eq_ok_iff.mp hkv
      exact .string hv hType hKey hValue
    · have hType := (get?_bind_eq_some_iff asString?_eq_some_iff).mp ‹_›
      obtain ⟨label, toggles, hLabel, hNonempty, hToggles, rfl⟩ := checkToggle_eq_ok_iff.mp h
      exact .toggle hv hType hLabel hNonempty hToggles
    · cases h
  · rintro (⟨hv, hType, hKey, hValue⟩ | ⟨hv, hType, hKey, hValue⟩ |
      ⟨hv, hType, hLabel, hNonempty, hToggles⟩)
    · refine ⟨_, hv, ?_⟩
      rw [(get?_bind_eq_some_iff asString?_eq_some_iff).mpr hType]
      exact map_eq_ok_iff.mpr ⟨(_, _), checkKeyValue_eq_ok_iff.mpr ⟨hKey, hValue⟩, rfl⟩
    · refine ⟨_, hv, ?_⟩
      rw [(get?_bind_eq_some_iff asString?_eq_some_iff).mpr hType]
      exact map_eq_ok_iff.mpr ⟨(_, _), checkKeyValue_eq_ok_iff.mpr ⟨hKey, hValue⟩, rfl⟩
    · refine ⟨_, hv, ?_⟩
      rw [(get?_bind_eq_some_iff asString?_eq_some_iff).mpr hType]
      exact checkToggle_eq_ok_iff.mpr ⟨_, _, hLabel, hNonempty, hToggles, rfl⟩

theorem checkDecisions_eq_ok_iff {v : Value} {ds : List Decision} :
    checkDecisions v = .ok ds ↔ ListIs DecisionIs v ds := by
  apply checkSequence_eq_ok_iff
  intro place v d
  exact checkDecision_eq_ok_iff

/-! ## Policy -/

theorem checkPolicy_eq_ok_iff {v : Value} {p : Policy} :
    checkPolicy v = .ok p ↔ PolicyIs v p := by
  unfold checkPolicy
  simp only [bind_eq_ok_iff, require_eq_ok_iff, asMapping?_eq_some_iff,
    get?_bind_eq_some_iff asString?_eq_some_iff, get?_bind_eq_some_iff asMapping?_eq_some_iff]
  constructor
  · rintro ⟨e, hv, rule, hRule, tag, hType, h⟩
    split at h
    · cases h
    · have hTag : tag = "rego" := not_not.mp ‹_›
      subst hTag
      simp only [bind_eq_ok_iff, require_eq_ok_iff, pure_eq_ok_iff,
        get?_bind_eq_some_iff asString?_eq_some_iff] at h
      obtain ⟨body, hBody, rfl⟩ := h
      exact .rego hv hRule hType hBody
  · rintro ⟨hv, hRule, hType, hBody⟩
    refine ⟨_, hv, _, hRule, _, hType, ?_⟩
    simp only [ne_eq, not_true_eq_false, if_false, bind_eq_ok_iff, require_eq_ok_iff,
      pure_eq_ok_iff, get?_bind_eq_some_iff asString?_eq_some_iff]
    exact ⟨_, hBody, rfl⟩

/-! ## Items -/

theorem filter_isTruthy_eq_none_iff {e : Entries} {key : String} :
    (e.get? key).filter Value.isTruthy = none ↔ ∀ w, e.get? key = some w → Unset w := by
  rw [Option.filter_eq_none_iff]
  simp only [unset_iff, Bool.not_eq_true]

/-- The sources with a value are one alone iff it has the value and the others have none. -/
theorem filterMap_all_eq_singleton_iff {f : QuerySource → Option Value} {source : QuerySource}
    {v : Value} :
    QuerySource.all.filterMap (fun other => (f other).map (other, ·)) = [(source, v)] ↔
      f source = some v ∧ ∀ other, other ≠ source → f other = none := by
  have hAll : (∀ other, other ≠ source → f other = none) ↔
      (QuerySource.datasource ≠ source → f .datasource = none) ∧
        (QuerySource.library ≠ source → f .library = none) ∧
          (QuerySource.package ≠ source → f .package = none) := by
    constructor
    · intro h
      exact ⟨h _, h _, h _⟩
    · rintro ⟨hDatasource, hLibrary, hPackage⟩ (_ | _ | _)
      · exact hDatasource
      · exact hLibrary
      · exact hPackage
  rw [hAll, QuerySource.all]
  simp only [List.filterMap_cons, List.filterMap_nil]
  cases hDatasource : f .datasource <;> cases hLibrary : f .library <;>
    cases hPackage : f .package <;> cases source <;> simp_all

theorem sourcesSet_eq_singleton_iff {e : Entries} {source : QuerySource} {v : Value} :
    sourcesSet e = [(source, v)] ↔
      (e.get? source.key = some v ∧ v.isTruthy = true) ∧
        ∀ other, other ≠ source → ∀ w, e.get? other.key = some w → Unset w := by
  rw [← Option.filter_eq_some_iff]
  simp only [← filter_isTruthy_eq_none_iff]
  exact filterMap_all_eq_singleton_iff

theorem Scope.checkItems_eq_ok_iff {s : Scope} {v : Value} {items : Items} :
    s.checkItems v = .ok items ↔ ItemsIs v items := by
  unfold Scope.checkItems
  cases hSequence : v.asSequence? with
  | some list =>
    have hv := asSequence?_eq_some_iff.mp hSequence
    simp only [map_eq_ok_iff, Scope.require_eq_ok_iff, strings?_eq_some_iff]
    constructor
    · rintro ⟨choices, hChoices, rfl⟩
      exact .list ⟨list, hv, hChoices⟩
    · rintro (⟨_, hv', hChoices⟩ | ⟨hv', _⟩)
      · rw [hv'] at hv
        cases hv
        exact ⟨_, hChoices, rfl⟩
      · unfold MappingIs at hv'
        rw [hv'] at hv
        cases hv
  | none =>
    simp only [bind_eq_ok_iff, Scope.require_eq_ok_iff, asMapping?_eq_some_iff,
      get?_bind_eq_some_iff asString?_eq_some_iff]
    constructor
    · rintro ⟨e, hv, text, hText, h⟩
      split at h
      · rename_i source w hSources
        obtain ⟨⟨hw, hTruthy⟩, hOnly⟩ := sourcesSet_eq_singleton_iff.mp hSources
        simp only [bind_eq_ok_iff, Scope.require_eq_ok_iff, pure_eq_ok_iff,
          asString?_eq_some_iff] at h
        obtain ⟨name, hName, rfl⟩ := h
        exact .query hv hText ⟨w, hw, hName⟩ ((isTruthy_iff_of_stringIs hName).mp hTruthy) hOnly
      · cases h
    · rintro (⟨_, hv', hChoices⟩ | ⟨hv, hText, ⟨w, hw, hName⟩, hNonempty, hOnly⟩)
      · rw [asSequence?_eq_some_iff.mpr hv'] at hSequence
        cases hSequence
      · have hTruthy := (isTruthy_iff_of_stringIs hName).mpr hNonempty
        refine ⟨_, hv, _, hText, ?_⟩
        rw [sourcesSet_eq_singleton_iff.mpr ⟨⟨hw, hTruthy⟩, hOnly⟩]
        simp only [bind_eq_ok_iff, Scope.require_eq_ok_iff, pure_eq_ok_iff, asString?_eq_some_iff]
        exact ⟨_, hName, rfl⟩

/-! ## Object parameters -/

theorem Scope.checkDefaultValue_eq_ok_iff {s : Scope} {type : ValueType} {key : String} {v : Value}
    {d : DefaultValue} : s.checkDefaultValue type key v = .ok d ↔ DefaultValueIs type v d := by
  unfold Scope.checkDefaultValue
  cases type with
  | string =>
    simp only [map_eq_ok_iff, Scope.require_eq_ok_iff, asString?_eq_some_iff]
    constructor
    · rintro ⟨text, hText, rfl⟩
      exact .string hText
    · rintro ⟨hText⟩
      exact ⟨_, hText, rfl⟩
  | setOfStrings =>
    simp only [bind_eq_ok_iff, map_eq_ok_iff, Scope.require_eq_ok_iff, asSequence?_eq_some_iff,
      strings?_eq_some_iff]
    constructor
    · rintro ⟨items, hv, ss, hItems, rfl⟩
      exact .strings ⟨items, hv, hItems⟩
    · rintro (_ | ⟨items, hv, hItems⟩)
      exact ⟨items, hv, _, hItems, rfl⟩
  | setOfNumbers =>
    simp only [bind_eq_ok_iff, map_eq_ok_iff, Scope.require_eq_ok_iff, asSequence?_eq_some_iff,
      numbers?_eq_some_iff]
    constructor
    · rintro ⟨items, hv, xs, hItems, rfl⟩
      exact .numbers ⟨items, hv, hItems⟩
    · rintro (_ | _ | ⟨items, hv, hItems⟩)
      exact ⟨items, hv, _, hItems, rfl⟩

/-- The entries are typed one by one, in document order, and collected. -/
theorem Scope.checkDefaultEntries_eq_ok_iff {s : Scope} {type : ValueType} {found d : ObjectDefault}
    {e : Entries} : s.checkDefaultEntries type found e = .ok d ↔
      ∃ typed, List.Forall₂ (DefaultEntryIs type) e typed ∧ ObjectDefault.collect found typed = d := by
  induction e generalizing found with
  | nil =>
    simp only [Scope.checkDefaultEntries, Except.ok.injEq, List.forall₂_nil_left_iff,
      exists_eq_left]
    rfl
  | cons entry e ih =>
    obtain ⟨key, v⟩ := entry
    simp only [Scope.checkDefaultEntries, bind_eq_ok_iff, Scope.require_eq_ok_iff,
      Scope.checkDefaultValue_eq_ok_iff, ih]
    constructor
    · rintro ⟨text, hText, value, hValue, typed, hTyped, rfl⟩
      exact ⟨(text, value) :: typed, .cons ⟨hText, hValue⟩ hTyped, rfl⟩
    · rintro ⟨_, hCons, rfl⟩
      cases hCons with
      | cons hEntry hTyped =>
        obtain ⟨hText, hValue⟩ := hEntry
        exact ⟨_, hText, _, hValue, _, hTyped, rfl⟩

theorem Scope.checkDefaultEntries_nil_eq_ok_iff {s : Scope} {type : ValueType} {d : ObjectDefault}
    {v : Value} {e : Entries} (hv : MappingIs v e) :
    s.checkDefaultEntries type [] e = .ok d ↔ ObjectDefaultIs type v d := by
  rw [Scope.checkDefaultEntries_eq_ok_iff]
  constructor
  · rintro ⟨typed, hTyped, hd⟩
    exact .mapping hv hTyped (ObjectDefault.collectsTo_iff.mpr hd)
  · rintro ⟨hv', hTyped, hd⟩
    unfold MappingIs at hv hv'
    rw [hv] at hv'
    cases hv'
    exact ⟨_, hTyped, ObjectDefault.collectsTo_iff.mp hd⟩

theorem Scope.checkMappingDefault_eq_ok_iff {s : Scope} {v : Value} {e : Entries} :
    s.checkMappingDefault v = .ok e ↔ MappingIs v e := by
  rw [Scope.checkMappingDefault, Scope.require_eq_ok_iff, asMapping?_eq_some_iff]

theorem Scope.checkKeyDescriptor_eq_ok_iff {s : Scope} {v : Value} {placeholder : String} :
    s.checkKeyDescriptor v = .ok placeholder ↔ KeyDescriptorIs v placeholder := by
  unfold Scope.checkKeyDescriptor
  simp only [bind_eq_ok_iff, Scope.require_eq_ok_iff, asMapping?_eq_some_iff,
    get?_bind_eq_some_iff asString?_eq_some_iff]
  constructor
  · rintro ⟨e, hv, hPlaceholder⟩
    exact .mapping hv hPlaceholder
  · rintro ⟨hv, hPlaceholder⟩
    exact ⟨_, hv, hPlaceholder⟩

theorem Scope.checkValuePlaceholder_eq_ok_iff {s : Scope} {v : Value} {placeholder : String} :
    s.checkValuePlaceholder v = .ok placeholder ↔ StringIs v placeholder := by
  rw [Scope.checkValuePlaceholder, Scope.require_eq_ok_iff, asString?_eq_some_iff]

/-- The mapping of a default is read before the type of its values is known, its entries after. -/
theorem Scope.checkTypedDefault_eq_ok_iff {s : Scope} {type : ValueType} {e : Entries}
    {d : Option ObjectDefault} :
    (∃ entries?, OptionalIs MappingIs e "default" entries? ∧
        s.checkTypedDefault type entries? = .ok d) ↔
      OptionalIs (ObjectDefaultIs type) e "default" d := by
  constructor
  · rintro ⟨entries?, hAbsent | ⟨hv, hNull⟩ | ⟨hv, hNull, hMapping⟩, hd⟩
    · cases hd
      exact .absent hAbsent
    · cases hd
      exact .null hv hNull
    · obtain ⟨d, hChecked, rfl⟩ := map_eq_ok_iff.mp hd
      exact .given hv hNull ((Scope.checkDefaultEntries_nil_eq_ok_iff hMapping).mp hChecked)
  · rintro (hAbsent | ⟨hv, hNull⟩ | ⟨hv, hNull, hd⟩)
    · exact ⟨none, .absent hAbsent, rfl⟩
    · exact ⟨none, .null hv hNull, rfl⟩
    · obtain ⟨hMapping, hTyped, hCollect⟩ := hd
      refine ⟨some _, .given hv hNull hMapping, map_eq_ok_iff.mpr ⟨_, ?_, rfl⟩⟩
      exact (Scope.checkDefaultEntries_nil_eq_ok_iff hMapping).mpr (.mapping hMapping hTyped hCollect)

theorem Scope.checkObject_eq_ok_iff {s : Scope} {e : Entries} {kind : ParameterKind} :
    s.checkObject e = .ok kind ↔
      ∃ default keyPlaceholder value type valuePlaceholder,
        OptionalIs KeyDescriptorIs e "key" keyPlaceholder ∧ FieldIs MappingIs e "value" value ∧
        OptionalIs StringIs value "placeholder" valuePlaceholder ∧
        FieldIs StringIs value "type" type.tag ∧
        OptionalIs (ObjectDefaultIs type) e "default" default ∧
        .object default keyPlaceholder type valuePlaceholder = kind := by
  unfold Scope.checkObject
  simp only [bind_eq_ok_iff, Scope.require_eq_ok_iff, pure_eq_ok_iff,
    optional_present?_eq_ok_iff Scope.checkMappingDefault_eq_ok_iff,
    optional_present?_eq_ok_iff Scope.checkKeyDescriptor_eq_ok_iff,
    optional_present?_eq_ok_iff Scope.checkValuePlaceholder_eq_ok_iff,
    get?_bind_eq_some_iff asMapping?_eq_some_iff,
    get?_bind_ofTag?_eq_some_iff ValueType.ofTag?_eq_some_iff]
  constructor
  · rintro ⟨entries?, hMapping, keyPlaceholder, hKey, value, hValue, valuePlaceholder,
      hValuePlaceholder, type, hType, default, hDefault, rfl⟩
    exact ⟨default, keyPlaceholder, value, type, valuePlaceholder, hKey, hValue, hValuePlaceholder,
      hType, Scope.checkTypedDefault_eq_ok_iff.mp ⟨entries?, hMapping, hDefault⟩, rfl⟩
  · rintro ⟨default, keyPlaceholder, value, type, valuePlaceholder, hKey, hValue,
      hValuePlaceholder, hType, hDefault, rfl⟩
    obtain ⟨entries?, hMapping, hTyped⟩ := (Scope.checkTypedDefault_eq_ok_iff (s := s)).mpr hDefault
    exact ⟨entries?, hMapping, keyPlaceholder, hKey, value, hValue, valuePlaceholder,
      hValuePlaceholder, type, hType, default, hTyped, rfl⟩

/-! ## Parameters -/

theorem stringIs_field_unique {e : Entries} {key s s' : String} (h : FieldIs StringIs e key s)
    (h' : FieldIs StringIs e key s') : s = s' := by
  rw [← get?_bind_eq_some_iff asString?_eq_some_iff] at h h'
  exact Option.some.inj (h.symm.trans h')

theorem Scope.optionalString_eq_ok_iff {s : Scope} {e : Entries} {field : String}
    {o : Option String} : s.optionalString e field = .ok o ↔ OptionalIs StringIs e field o := by
  apply optional_present?_eq_ok_iff
  intro v a
  rw [Scope.require_eq_ok_iff, asString?_eq_some_iff]

theorem Scope.optionalBool_eq_ok_iff {s : Scope} {e : Entries} {field : String} {o : Option Bool} :
    s.optionalBool e field = .ok o ↔ OptionalIs BoolIs e field o := by
  apply optional_present?_eq_ok_iff
  intro v a
  rw [Scope.require_eq_ok_iff, asBool?_eq_some_iff]

theorem Scope.checkStringsDefault_eq_ok_iff {s : Scope} {v : Value} {ss : List String} :
    s.checkStringsDefault v = .ok ss ↔ ListIs StringIs v ss := by
  unfold Scope.checkStringsDefault ListIs
  simp only [bind_eq_ok_iff, Scope.require_eq_ok_iff, asSequence?_eq_some_iff, strings?_eq_some_iff]

theorem Scope.checkNumberDefault_eq_ok_iff {s : Scope} {v : Value} {x : Binary64} :
    s.checkNumberDefault v = .ok x ↔ NumberIs v x := by
  rw [Scope.checkNumberDefault, Scope.require_eq_ok_iff, asNumber?_eq_some_iff]

theorem Scope.checkNumbersDefault_eq_ok_iff {s : Scope} {v : Value} {xs : List Binary64} :
    s.checkNumbersDefault v = .ok xs ↔ ListIs NumberIs v xs := by
  unfold Scope.checkNumbersDefault ListIs
  simp only [bind_eq_ok_iff, Scope.require_eq_ok_iff, asSequence?_eq_some_iff, numbers?_eq_some_iff]

theorem Scope.checkString_eq_ok_iff {s : Scope} {e : Entries} {kind : ParameterKind} :
    s.checkString e = .ok kind ↔
      ∃ default items, OptionalIs StringIs e "default" default ∧ OptionalIs ItemsIs e "items" items ∧
        .string default items = kind := by
  unfold Scope.checkString
  simp only [bind_eq_ok_iff, pure_eq_ok_iff, Scope.optionalString_eq_ok_iff,
    optional_present?_eq_ok_iff Scope.checkItems_eq_ok_iff]
  constructor
  · rintro ⟨default, hDefault, items, hItems, rfl⟩
    exact ⟨default, items, hDefault, hItems, rfl⟩
  · rintro ⟨default, items, hDefault, hItems, rfl⟩
    exact ⟨default, hDefault, items, hItems, rfl⟩

theorem Scope.checkSetOfStrings_eq_ok_iff {s : Scope} {e : Entries} {kind : ParameterKind} :
    s.checkSetOfStrings e = .ok kind ↔
      ∃ default items, OptionalIs (ListIs StringIs) e "default" default ∧
        OptionalIs ItemsIs e "items" items ∧ .setOfStrings default items = kind := by
  unfold Scope.checkSetOfStrings
  simp only [bind_eq_ok_iff, pure_eq_ok_iff,
    optional_present?_eq_ok_iff Scope.checkStringsDefault_eq_ok_iff,
    optional_present?_eq_ok_iff Scope.checkItems_eq_ok_iff]
  constructor
  · rintro ⟨default, hDefault, items, hItems, rfl⟩
    exact ⟨default, items, hDefault, hItems, rfl⟩
  · rintro ⟨default, items, hDefault, hItems, rfl⟩
    exact ⟨default, hDefault, items, hItems, rfl⟩

theorem Scope.checkNumber_eq_ok_iff {s : Scope} {e : Entries} {kind : ParameterKind} :
    s.checkNumber e = .ok kind ↔
      ∃ default, OptionalIs NumberIs e "default" default ∧ .number default = kind := by
  unfold Scope.checkNumber
  simp only [bind_eq_ok_iff, pure_eq_ok_iff,
    optional_present?_eq_ok_iff Scope.checkNumberDefault_eq_ok_iff]

theorem Scope.checkSetOfNumbers_eq_ok_iff {s : Scope} {e : Entries} {kind : ParameterKind} :
    s.checkSetOfNumbers e = .ok kind ↔
      ∃ default, OptionalIs (ListIs NumberIs) e "default" default ∧ .setOfNumbers default = kind := by
  unfold Scope.checkSetOfNumbers
  simp only [bind_eq_ok_iff, pure_eq_ok_iff,
    optional_present?_eq_ok_iff Scope.checkNumbersDefault_eq_ok_iff]

/-- The kind of a parameter whose `type` is the tag of the scope. -/
theorem Scope.checkKind_eq_ok_iff {s : Scope} {e : Entries} {kind : ParameterKind}
    (hType : FieldIs StringIs e "type" s.type.tag) : s.checkKind e = .ok kind ↔ KindIs e kind := by
  have hTag {type : ParameterType} (h : FieldIs StringIs e "type" type.tag) : s.type = type :=
    ParameterType.tag_injective (stringIs_field_unique hType h)
  unfold Scope.checkKind
  constructor
  · intro h
    cases hKind : s.type with
    | string =>
      rw [hKind] at h hType
      obtain ⟨default, items, hDefault, hItems, rfl⟩ := Scope.checkString_eq_ok_iff.mp h
      exact .string hType hDefault hItems
    | setOfStrings =>
      rw [hKind] at h hType
      obtain ⟨default, items, hDefault, hItems, rfl⟩ := Scope.checkSetOfStrings_eq_ok_iff.mp h
      exact .setOfStrings hType hDefault hItems
    | number =>
      rw [hKind] at h hType
      obtain ⟨default, hDefault, rfl⟩ := Scope.checkNumber_eq_ok_iff.mp h
      exact .number hType hDefault
    | setOfNumbers =>
      rw [hKind] at h hType
      obtain ⟨default, hDefault, rfl⟩ := Scope.checkSetOfNumbers_eq_ok_iff.mp h
      exact .setOfNumbers hType hDefault
    | object =>
      rw [hKind] at h hType
      obtain ⟨default, keyPlaceholder, value, type, valuePlaceholder, hKey, hValue,
        hValuePlaceholder, hValueType, hDefault, rfl⟩ := Scope.checkObject_eq_ok_iff.mp h
      exact .object hType hKey hValue hValuePlaceholder hValueType hDefault
  · intro h
    cases h with
    | string h hDefault hItems =>
      have hKind : s.type = .string := hTag h
      rw [hKind]
      exact Scope.checkString_eq_ok_iff.mpr ⟨_, _, hDefault, hItems, rfl⟩
    | setOfStrings h hDefault hItems =>
      have hKind : s.type = .setOfStrings := hTag h
      rw [hKind]
      exact Scope.checkSetOfStrings_eq_ok_iff.mpr ⟨_, _, hDefault, hItems, rfl⟩
    | number h hDefault =>
      have hKind : s.type = .number := hTag h
      rw [hKind]
      exact Scope.checkNumber_eq_ok_iff.mpr ⟨_, hDefault, rfl⟩
    | setOfNumbers h hDefault =>
      have hKind : s.type = .setOfNumbers := hTag h
      rw [hKind]
      exact Scope.checkSetOfNumbers_eq_ok_iff.mpr ⟨_, hDefault, rfl⟩
    | object h hKey hValue hValuePlaceholder hValueType hDefault =>
      have hKind : s.type = .object := hTag h
      rw [hKind]
      exact Scope.checkObject_eq_ok_iff.mpr
        ⟨_, _, _, _, _, hKey, hValue, hValuePlaceholder, hValueType, hDefault, rfl⟩

/-- What a parameter carries stands under the tag of its type. -/
theorem KindIs.fieldIs_type {e : Entries} {kind : ParameterKind} (h : KindIs e kind) :
    FieldIs StringIs e "type" kind.type.tag := by
  cases h <;> assumption

theorem checkParameter_eq_ok_iff {place : Place} {v : Value} {p : Parameter} :
    checkParameter place v = .ok p ↔ ParameterIs v p := by
  unfold checkParameter
  simp only [bind_eq_ok_iff, require_eq_ok_iff, pure_eq_ok_iff, asMapping?_eq_some_iff,
    get?_bind_eq_some_iff asString?_eq_some_iff,
    get?_bind_ofTag?_eq_some_iff ParameterType.ofTag?_eq_some_iff,
    Scope.optionalString_eq_ok_iff, Scope.optionalBool_eq_ok_iff]
  constructor
  · rintro ⟨e, hv, type, hType, name, hName, label, hLabel, required, hRequired, placeholder,
      hPlaceholder, kind, hKind, rfl⟩
    exact .mapping hv hName hLabel hRequired hPlaceholder ((Scope.checkKind_eq_ok_iff hType).mp hKind)
  · rintro ⟨hv, hName, hLabel, hRequired, hPlaceholder, hKind⟩
    exact ⟨_, hv, _, hKind.fieldIs_type, _, hName, _, hLabel, _, hRequired, _, hPlaceholder, _,
      (Scope.checkKind_eq_ok_iff hKind.fieldIs_type).mpr hKind, rfl⟩

theorem checkParameters_eq_ok_iff {v : Value} {ps : List Parameter} :
    checkParameters v = .ok ps ↔ ListIs ParameterIs v ps := by
  apply checkSequence_eq_ok_iff
  intro place v p
  exact checkParameter_eq_ok_iff

/-! ## Documents -/

theorem entries_eq_of_mappingIs {v : Value} {e : Entries} (h : MappingIs v e) : v.entries = e := by
  rw [Value.entries, asMapping?_eq_some_iff.mpr h, Option.getD_some]

/-- A value that has a field is a mapping. -/
theorem mappingIs_of_fieldIs {R : Value → α → Prop} {v : Value} {key : String} {a : α}
    (h : FieldIs R v.entries key a) : MappingIs v v.entries := by
  unfold Value.entries at h ⊢
  cases hMapping : v.asMapping? with
  | none =>
    obtain ⟨w, hw, _⟩ := h
    rw [hMapping] at hw
    cases hw
  | some e => exact asMapping?_eq_some_iff.mp hMapping

/-- A null `schema` counts as one that is no mapping. -/
theorem map_entries_present?_eq {root : Entries} {key : String} :
    ((root.present? key).map Value.entries).getD [] =
      ((root.get? key).bind Value.asMapping?).getD [] := by
  cases h : root.present? key with
  | none =>
    rcases present?_eq_none_iff.mp h with hAbsent | ⟨v, hv, hNull⟩
    · rw [hAbsent]
      rfl
    · have hMapping : v.asMapping? = none := by rw [Value.asMapping?, hNull]
      rw [hv, Option.bind_some, hMapping]
      rfl
  | some v =>
    rw [(present?_eq_some_iff.mp h).1]
    rfl

theorem schemaIs_iff {root e : Entries} :
    SchemaIs root e ↔ ((root.present? "schema").map Value.entries).getD [] = e := by
  have hField {e : Entries} :
      (root.get? "schema").bind Value.asMapping? = some e ↔ FieldIs MappingIs root "schema" e :=
    get?_bind_eq_some_iff asMapping?_eq_some_iff
  rw [map_entries_present?_eq]
  cases h : (root.get? "schema").bind Value.asMapping? with
  | none =>
    constructor
    · rintro (hMapping | _)
      · rw [hField.mpr hMapping] at h
        cases h
      · rfl
    · rintro rfl
      refine .other ?_
      intro e hMapping
      rw [hField.mpr hMapping] at h
      cases h
  | some e' =>
    have hMapping' := hField.mp h
    constructor
    · rintro (hMapping | hOther)
      · rw [hField.mpr hMapping] at h
        exact (Option.some.inj h).symm
      · exact absurd hMapping' (hOther e')
    · rintro rfl
      exact .mapping hMapping'

end Schema

open Schema in
/-- A document is accepted with the metadata `m` iff it conforms to the schema and holds `m`. -/
theorem Metadata.ofDocument_eq_ok_iff_conforms {document : Value} {m : Metadata} :
    Metadata.ofDocument document = .ok m ↔ Conforms document m := by
  unfold Metadata.ofDocument
  simp only [bind_eq_ok_iff, require_eq_ok_iff, pure_eq_ok_iff,
    get?_bind_eq_some_iff asString?_eq_some_iff,
    optional_present?_eq_ok_iff checkDecisions_eq_ok_iff,
    optional_present?_eq_ok_iff checkPolicy_eq_ok_iff,
    optional_present?_eq_ok_iff checkParameters_eq_ok_iff]
  constructor
  · rintro ⟨title, hTitle, description, hDescription, decision, hDecision, policy, hPolicy,
      parameters, hParameters, rfl⟩
    exact .mapping (mappingIs_of_fieldIs hTitle) hTitle hDescription (schemaIs_iff.mpr rfl)
      hDecision hPolicy hParameters
  · rintro ⟨hRoot, hTitle, hDescription, hSchema, hDecision, hPolicy, hParameters⟩
    rw [entries_eq_of_mappingIs hRoot, schemaIs_iff.mp hSchema]
    exact ⟨_, hTitle, _, hDescription, _, hDecision, _, hPolicy, _, hParameters, rfl⟩

end SnippetAudit
