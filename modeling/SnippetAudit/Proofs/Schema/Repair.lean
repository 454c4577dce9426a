import Mathlib.Data.Fintype.EquivFin
import SnippetAudit.Proofs.Schema.Repairable

/-!
# Every violation can be resolved

Each rule of the schema looks at a place where it can be kept: a value of the right kind, put there,
leaves the rules before it as they are. Most rules ask for such a value directly. Where more than one
field counts, as for the label of a toggle or for the source of a query, the new value has them all.
A key that is no scalar has no place of its own; the entries before it stay, and another entry comes
behind them.

So the path of a violation leads to a position of the document where the violation is resolved, and
what is reported next, if anything, stands later in the order of the schema.

Results:
* `repairable_decisionRules`, `repairable_policyRules`, `repairable_parameterRules`: the parts of a
  document.
* `repairable_documentRules`: a document as a whole.
* `Metadata.exists_resolves_of_error`: the path of a violation, and a value that resolves it.
-/

namespace SnippetAudit

open Yaml (Value Entries)
open Yaml.Value (Move)

namespace Schema

variable {keeps : Value → Prop} {base : Place} {v : Value}

/-! ## Values for repairs -/

/-- A mapping with these fields. -/
def record (fields : List (String × Value)) : Value :=
  .mapping (fields.map fun field => (.string field.1, field.2))

theorem proper_record {fields : List (String × Value)} (hKeys : (fields.map Prod.fst).Nodup)
    (h : ∀ field ∈ fields, field.2.Proper) : (record fields).Proper := by
  refine .mapping ?_ ?_ ?_
  · unfold DistinctKeys
    rw [List.pairwise_map]
    exact (List.pairwise_map.mp hKeys).imp fun hNe => by simpa [Value.same] using hNe
  · simp only [List.forall_mem_map]
    exact fun field _ => .string field.1
  · simpa only [List.forall_mem_map] using h

theorem proper_record_nil : (record []).Proper := proper_record .nil (by simp)

/-- A string looks like its text. -/
theorem ofValue_of_asString? {text : String} (h : v.asString? = some text) :
    Found.ofValue v = .text text := by
  rw [Found.ofValue, asString?_eq_some_iff.mp h]

theorem ofValue_of_isMapping (h : v.isMapping = true) : Found.ofValue v = .mapping := by
  obtain ⟨es, hes⟩ := Option.isSome_iff_exists.mp h
  rw [Found.ofValue, asMapping?_eq_some_iff.mp hes]

theorem isNull_of_isMapping (h : v.isMapping = true) : v.isNull = false := by
  obtain ⟨es, hes⟩ := Option.isSome_iff_exists.mp h
  rw [Value.isNull, asMapping?_eq_some_iff.mp hes]

theorem isList_of_isMapping (h : v.isMapping = true) : v.isList = false := by
  obtain ⟨es, hes⟩ := Option.isSome_iff_exists.mp h
  rw [Value.isList, Value.asSequence?, asMapping?_eq_some_iff.mp hes]
  rfl

theorem isNull_of_isList (h : v.isList = true) : v.isNull = false := by
  obtain ⟨vs, hvs⟩ := Option.isSome_iff_exists.mp h
  rw [Value.isNull, asSequence?_eq_some_iff.mp hvs]

/-! ## Decisions -/

theorem repairable_toggleRules (place : Place) (v : Value) :
    Repairable (fun _ => True) place (toggleRules place) v := by
  refine .cons (.here (record []) rfl (fun _ => proper_record_nil) trivial
    ⟨rfl, rfl⟩ rfl) fun (hMapping : v.isMapping = true) => ?_
  refine .cons (.leaf "key" (fun u => ⟨place ++ [.field "key"], .toggleKeyNotString, u.isString⟩)
    (.string "") rfl (.string "") ⟨rfl, rfl⟩ rfl hMapping ?_) fun _ => ?_
  · intro v' hSame
    simp [hSame.mapping, hMapping]
  refine .leaf "value"
    (fun u => ⟨place ++ [.field "value"], .toggleValueNotBool (.ofValue u), u.isBool⟩)
    (.bool true) rfl (.bool true) ⟨rfl, rfl⟩ rfl hMapping ?_
  intro v' hSame
  simp [hSame.mapping, hMapping, hSame.field]

/-- A mapping whose tag is a given one. -/
def Tagged (tag : String) (v : Value) : Prop :=
  v.isMapping = true ∧ (v.field "type").asString? = some tag

theorem Tagged.sameBut {tag key : String} {v' : Value} (h : Tagged tag v) (hKey : key ≠ "type")
    (hSame : SameBut key v v') : Tagged tag v' :=
  ⟨hSame.mapping, by rw [hSame.field "type" hKey.symm, h.2]⟩

theorem repairable_decisionTagRules (place : Place) {tag : String} (h : Tagged tag v) :
    Repairable (Tagged tag) place (fun v => decisionTagRules place v (some tag)) v := by
  by_cases hToggle : tag = "toggle"
  · subst hToggle
    simp only [decisionTagRules, List.cons_append, List.nil_append]
    refine .cons (.here (record [("type", .string "toggle"), ("label", .string "l")]) rfl
      (fun _ => proper_record (by decide) ?_) ⟨rfl, rfl⟩ ⟨rfl, rfl⟩ rfl) fun _ => ?_
    · simp [Value.Proper.string]
    refine .cons ?_ fun _ => ?_
    · -- the label that replaces another one must be set as well
      have hLabel : Repairable (fun u => u.isTruthy = true) (place ++ [.field "label"])
          (fun u => [⟨place ++ [.field "label"], .labelNotString, u.isString⟩]) (v.field "label") :=
        .here (.string "l") rfl (fun _ => .string "l") rfl ⟨rfl, rfl⟩ rfl
      refine .field "label" _ hLabel h.1 fun v' hSame hSet => ⟨h.sameBut (by decide) hSame, ?_⟩
      simp [hSet, show (v.field "label").isTruthy = true by assumption]
    · refine .field "toggles" _ (.list .togglesNotArray repairable_toggleRules fun _ _ => trivial)
        h.1 fun v' hSame _ => ?_
      simp [h.sameBut (by decide) hSame, hSame.field]
  · have hRules (v : Value) : decisionTagRules place v (some tag) =
        [⟨place, .keyOrValueNotString tag,
          (v.field "key").isString && (v.field "value").isString⟩] := by
      unfold decisionTagRules
      split <;> simp_all
    simp only [hRules]
    refine .here (record [("type", .string tag), ("key", .string ""), ("value", .string "")]) rfl
      (fun _ => proper_record (by simp) ?_) ⟨rfl, rfl⟩ ⟨rfl, rfl⟩ rfl
    simp [Value.Proper.string]

theorem repairable_decisionRules (place : Place) (v : Value) :
    Repairable (fun _ => True) place (decisionRules place) v := by
  unfold decisionRules
  simp only [List.cons_append, List.nil_append]
  refine .cons (.here (record []) rfl (fun _ => proper_record_nil) trivial
    ⟨rfl, rfl⟩ rfl) fun (hMapping : v.isMapping = true) => ?_
  refine .cons (.leaf "type" (fun u => ⟨place ++ [.field "type"], .unknownDecisionType (.ofValue u),
    u.asString?.any (Decision.tags.contains ·)⟩) (.string "rego") rfl (.string "rego") ⟨rfl, rfl⟩ rfl
    hMapping ?_) fun (hType : (v.field "type").asString?.any _ = true) => ?_
  · intro v' hSame
    simp [hSame.mapping, hMapping]
  obtain ⟨tag, hTag, -⟩ := (Option.any_eq_true _ _).mp hType
  have hRules := repairable_decisionTagRules place ⟨hMapping, hTag⟩
  refine (hRules.congr (by rw [hTag]) ?_).mono ?_
  · rintro v' ⟨-, hTag'⟩
    rw [hTag']
  · rintro v' ⟨hMapping', hTag'⟩
    simp [hMapping', hMapping, ofValue_of_asString? hTag', ofValue_of_asString? hTag, hTag', hTag]

/-! ## The policy -/

/-- The type of a rule, which is a string first and then a known one. -/
theorem repairable_ruleType (place : Place) (v : Value) :
    Repairable (fun _ => True) place (fun v => [⟨place, .ruleTypeNotString, v.isString⟩,
      ⟨place, .unknownRuleType (v.asString?.getD ""), v.asString? = some "rego"⟩]) v := by
  refine .cons (.here (.string "rego") rfl (fun _ => .string "rego") trivial ⟨rfl, rfl⟩ rfl)
    fun (hString : v.isString = true) => ?_
  refine .here (.string "rego") rfl (fun _ => .string "rego") ⟨trivial, ?_⟩ ⟨rfl, rfl⟩ rfl
  rw [hString]
  rfl

theorem repairable_rule (place : Place) (v : Value) :
    Repairable (fun _ => True) place (fun rule => [⟨place, .ruleNotMapping, rule.isMapping⟩,
      ⟨place ++ [.field "type"], .ruleTypeNotString, (rule.field "type").isString⟩,
      ⟨place ++ [.field "type"], .unknownRuleType ((rule.field "type").asString?.getD ""),
        (rule.field "type").asString? = some "rego"⟩,
      ⟨place ++ [.field "value"], .ruleValueNotString, (rule.field "value").isString⟩]) v := by
  refine .cons (.here (record []) rfl (fun _ => proper_record_nil) trivial ⟨rfl, rfl⟩ rfl)
    fun (hMapping : v.isMapping = true) => ?_
  refine .append (.field "type" _ (repairable_ruleType (place ++ [.field "type"]) _) hMapping ?_)
    fun _ => ?_
  · intro v' hSame _
    simp [hSame.mapping, hMapping]
  refine .leaf "value" (fun u => ⟨place ++ [.field "value"], .ruleValueNotString, u.isString⟩)
    (.string "") rfl (.string "") ⟨rfl, rfl⟩ rfl hMapping ?_
  intro v' hSame
  simp [hSame.mapping, hMapping, hSame.field]

theorem repairable_policyRules (v : Value) :
    Repairable (fun u => u.isMapping = true) [.field "policy"] policyRules v := by
  refine .cons (.here (record []) rfl (fun _ => proper_record_nil) rfl ⟨rfl, rfl⟩ rfl)
    fun (hMapping : v.isMapping = true) => ?_
  refine .field "rule" _ (repairable_rule ([.field "policy"] ++ [.field "rule"]) _) hMapping ?_
  intro v' hSame _
  simp [hSame.mapping, hMapping]

/-! ## Items -/

/-- What stands under other keys does not change which sources are set. -/
theorem sources_eq_of_sameBut {source : QuerySource} {v' : Value} (hSame : SameBut source.key v v')
    (h : (v.field source.key).isTruthy = true) (h' : (v'.field source.key).isTruthy = true) :
    Scope.sources v' = Scope.sources v := by
  unfold Scope.sources
  refine List.filter_congr fun source' _ => ?_
  by_cases hKey : source'.key = source.key
  · rw [hKey, h, h']
  · rw [hSame.field _ hKey]

/-- The one source of a query. Another name in its place must be set as well. -/
theorem repairable_source (s : Scope) (hMapping : v.isMapping = true) {source : QuerySource}
    (hSource : Scope.sources v = [source]) :
    Repairable (fun v' => (v'.isMapping = true ∧ v'.field "query" = v.field "query") ∧
      Scope.sources v' = [source]) (s.place ++ [.field "items"]) (fun v =>
        [s.rule [.field "items", .field source.key] (.sourceNotString source)
          (v.field source.key).isString]) v := by
  have hSet : (v.field source.key).isTruthy = true := by
    have hMem : source ∈ Scope.sources v := by simp [hSource]
    exact (List.mem_filter.mp hMem).2
  have hName : Repairable (fun u => u.isTruthy = true)
      (s.place ++ [.field "items"] ++ [.field source.key])
      (fun u => [s.rule [.field "items", .field source.key] (.sourceNotString source) u.isString])
      (v.field source.key) :=
    .here (.string "d") (by simp [Scope.rule]) (fun _ => .string "d") rfl ⟨rfl, rfl⟩ rfl
  refine .field source.key _ hName hMapping fun v' hSame hSet' => ⟨⟨hSame.mapping, ?_⟩, ?_⟩
  · exact hSame.field "query" (by cases source <;> decide)
  · rw [sources_eq_of_sameBut hSame hSet hSet', hSource]

theorem repairable_query (s : Scope) (v : Value) :
    Repairable (fun u => u.isMapping = true) (s.place ++ [.field "items"]) (fun v =>
      [s.rule [.field "items"] (.itemsShape (.ofValue v)) v.isMapping,
        s.rule [.field "items", .field "query"] .queryNotString (v.field "query").isString,
        s.rule [.field "items"] (.sourceCount (Scope.sources v).length)
          ((Scope.sources v).length = 1)] ++
      (Scope.sources v).map fun source =>
        s.rule [.field "items", .field source.key] (.sourceNotString source)
          (v.field source.key).isString) v := by
  simp only [List.cons_append, List.nil_append]
  refine .cons (.here (record []) rfl (fun _ => proper_record_nil) rfl ⟨rfl, rfl⟩ rfl)
    fun (hMapping : v.isMapping = true) => ?_
  refine .cons (.leaf "query" (fun u => s.rule [.field "items", .field "query"] .queryNotString
    u.isString) (.string "") (by simp [Scope.rule]) (.string "") ⟨rfl, rfl⟩ rfl hMapping ?_)
    fun (hQuery : (v.field "query").isString = true) => ?_
  · intro v' hSame
    simp [hSame.mapping, hMapping, ofValue_of_isMapping]
  refine .cons (.here (record [("query", .string ""), ("datasource", .string "d")]) rfl
    (fun _ => proper_record (by decide) (by simp [Value.Proper.string])) ?_ ⟨rfl, rfl⟩ rfl)
    fun hCount => ?_
  · refine ⟨⟨rfl, ?_⟩, ?_⟩
    · rw [hMapping, ofValue_of_isMapping hMapping]
      rfl
    · rw [hQuery]
      rfl
  obtain ⟨source, hSource⟩ := List.length_eq_one_iff.mp (of_decide_eq_true hCount)
  refine ((repairable_source s hMapping hSource).congr
    (by rw [hSource, List.map_singleton]) ?_).mono ?_
  · rintro v' ⟨-, hSource'⟩
    rw [hSource', List.map_singleton]
  · rintro v' ⟨⟨hMapping', hQuery'⟩, hSource'⟩
    simp [hMapping', hMapping, ofValue_of_isMapping, hQuery', hSource', hSource]

theorem repairable_itemsRules (s : Scope) (v : Value) :
    Repairable (fun u => u.isNull = false) (s.place ++ [.field "items"]) s.itemsRules v := by
  cases hList : v.isList with
  | true =>
    have hItems : Repairable (fun u => u.isList = true) (s.place ++ [.field "items"])
        (fun v => [s.rule [.field "items"] .itemsNotStrings (v.items.all (·.isString))]) v :=
      .here (.sequence []) rfl (fun _ => .sequence (by simp)) rfl ⟨rfl, rfl⟩ rfl
    refine (hItems.congr (by rw [Scope.itemsRules, if_pos hList]) ?_).mono fun _ => isNull_of_isList
    intro v' hList'
    rw [Scope.itemsRules, if_pos hList']
  | false =>
    refine ((repairable_query s v).congr
      (by rw [Scope.itemsRules, hList, if_neg (by simp)]) ?_).mono fun _ => isNull_of_isMapping
    intro v' hMapping
    rw [Scope.itemsRules, isList_of_isMapping hMapping, if_neg (by simp)]

/-! ## Defaults of object parameters -/

/-- A value of each type that a default can have. -/
def sample : ValueType → Value
  | .string => .string ""
  | .setOfStrings | .setOfNumbers => .sequence []

theorem proper_sample (type : ValueType) : (sample type).Proper := by
  cases type with
  | string => exact .string ""
  | setOfStrings | setOfNumbers => exact .sequence (by simp)

theorem repairable_defaultValueRules (s : Scope) (key : String) (type : ValueType) (v : Value) :
    Repairable (fun _ => True) (s.place ++ [.field "default"] ++ [.entry key])
      (fun v => s.defaultValueRules key v type) v := by
  have hPlace (fault : ParameterFault) (kept : Bool) :
      (s.rule [.field "default", .entry key] fault kept).place =
        s.place ++ [.field "default"] ++ [.entry key] := by
    simp [Scope.rule]
  have hProper (_ : v.Proper) := proper_sample type
  cases type with
  | string => exact .here (sample .string) (hPlace _ _) hProper trivial ⟨rfl, rfl⟩ rfl
  | setOfStrings | setOfNumbers =>
    refine .cons (.here (.sequence []) (hPlace _ _) hProper trivial ⟨rfl, rfl⟩ rfl)
      fun (hList : v.isList = true) => ?_
    refine .here (.sequence []) (hPlace _ _) hProper ⟨trivial, ?_⟩ ⟨rfl, rfl⟩ rfl
    rw [hList]
    rfl

/-- There is always a string that is no key yet. -/
theorem exists_new_key (es : Entries) :
    ∃ key : String, ∀ e ∈ es, e.1.same (.string key) = false := by
  obtain ⟨key, hKey⟩ :=
    Infinite.exists_notMem_finset (es.filterMap fun e => e.1.asString?).toFinset
  refine ⟨key, fun e he => ?_⟩
  by_contra hSame
  have hUnder : e.1 = .string key := standsUnder_iff.mp (Bool.not_eq_false _ ▸ hSame)
  refine hKey (List.mem_toFinset.mpr (List.mem_filterMap.mpr ⟨e, he, ?_⟩))
  rw [hUnder]
  rfl

/-- What has an entry is a mapping. -/
theorem isMapping_of_entries {e : Value × Value} {i : ℕ} (h : v.entries[i]? = some e) :
    v.isMapping = true := by
  unfold Value.entries at h
  unfold Value.isMapping
  cases hv : v.asMapping? with
  | some es => rfl
  | none => simp [hv] at h

theorem repairable_defaultEntries (s : Scope) (type : ValueType) (v : Value) :
    Repairable (fun u => u.isMapping = true) (s.place ++ [.field "default"])
      (fun v => v.entries.flatMap (s.defaultEntryRules type)) v := by
  intro front rule back hRules hFront hBroken
  obtain ⟨before, ⟨key, child⟩, behind, front', back', hEntries, rfl, hEntry⟩ :=
    exists_of_flatMap_eq_append_cons hRules
  cases front' with
  | nil =>
    -- the key is no scalar: the entries before it stay, and one with another key comes behind them
    obtain ⟨rfl, -⟩ := List.cons.inj hEntry
    obtain ⟨key', hNew⟩ := exists_new_key before
    refine ⟨[], [], .mapping (Entries.insert (.string key') (sample type) before), {
      place := by simp [Scope.rule]
      locates := .here v
      proper := fun hv => (hv.front hEntries).insert (.string key') (proper_sample type)
      keeps := rfl
      rules := ?_ }⟩
    refine ⟨s.rule [.field "default"] .defaultKeyNotScalar true,
      s.defaultValueRules key' (sample type) type, ?_, ⟨rfl, rfl⟩, rfl⟩
    change (Entries.insert _ _ before).flatMap _ = _
    rw [Entries.insert_of_new hNew, List.flatMap_append, List.flatMap_singleton, List.append_nil]
    rfl
  | cons rule' front' =>
    obtain ⟨rfl, hValue⟩ := List.cons.inj hEntry
    obtain ⟨hBefore, hHere⟩ := List.forall_mem_append.mp hFront
    obtain ⟨hKey, hFront'⟩ := List.forall_mem_cons.mp hHere
    obtain ⟨text, hText⟩ := Option.isSome_iff_exists.mp hKey
    obtain ⟨steps, moves, w, hRepair⟩ :=
      repairable_defaultValueRules s _ type child front' rule back' hValue hFront' hBroken
    change key.keyText? = some text at hText
    simp only [hText, Option.getD_some] at hRepair
    have hAt : v.entries[before.length]? = some (key, child) := by simp [hEntries]
    have hChild : v.child? (.entry before.length) = some child := by simp [Value.child?, hAt]
    have hPut : v.put (.entry before.length :: moves) w =
        v.setChild (.entry before.length) (child.put moves w) := by
      rw [Value.put, hChild, Option.getD_some]
    have hEntries' : (v.put (.entry before.length :: moves) w).entries =
        before ++ (key, child.put moves w) :: behind := by
      rw [hPut, Value.entries_setChild_entry, hEntries, List.modify_eq_take_cons_drop (by simp)]
      simp
    obtain ⟨rule', rest, hRest, hRule'⟩ := hRepair.rules
    refine ⟨.entry text :: steps, .entry before.length :: moves, w, {
      place := by rw [hRepair.place, List.append_assoc, List.singleton_append]
      locates := .entry hAt hText hRepair.locates
      proper := fun hv => hPut ▸ hv.setChild (hRepair.proper (hv.child hChild))
      keeps :=
        (isMapping_congr (hPut ▸ Value.ofValue_setChild _ _ _)).trans (isMapping_of_entries hAt)
      rules := ⟨rule', rest ++ behind.flatMap (s.defaultEntryRules type), ?_, hRule'⟩ }⟩
    simp only [hEntries', List.flatMap_append, List.flatMap_cons, Scope.defaultEntryRules, hText,
      Option.getD_some, hRest]
    simp

/-! ## Object parameters -/

theorem repairable_keyDescriptor (s : Scope) (v : Value) :
    Repairable (fun _ => True) (s.place ++ [.field "key"]) (fun key => optionalRules key
      [s.rule [.field "key"] .keyNotMapping key.isMapping,
        s.rule [.field "key", .field "placeholder"] .keyPlaceholderNotString
          (key.field "placeholder").isString]) v := by
  refine .optional fun _ => .cons (.here (record []) rfl (fun _ => proper_record_nil)
    ⟨trivial, rfl⟩ ⟨rfl, rfl⟩ rfl) fun (hMapping : v.isMapping = true) => ?_
  refine .leaf "placeholder" (fun u => s.rule [.field "key", .field "placeholder"]
    .keyPlaceholderNotString u.isString) (.string "") (by simp [Scope.rule]) (.string "")
    ⟨rfl, rfl⟩ rfl hMapping fun v' hSame => ?_
  simp [hSame.mapping, hMapping, isNull_of_isMapping]

theorem repairable_valuePlaceholder (s : Scope) (hMapping : v.isMapping = true) :
    Repairable (fun u => u.isMapping = true) (s.place ++ [.field "value"]) (fun value =>
      optionalRules (value.field "placeholder") [s.rule [.field "value", .field "placeholder"]
        .valuePlaceholderNotString (value.field "placeholder").isString]) v :=
  .optionalLeaf "placeholder" (fun u => s.rule [.field "value", .field "placeholder"]
    .valuePlaceholderNotString u.isString) (.string "") (by simp [Scope.rule]) (.string "")
    ⟨rfl, rfl⟩ rfl rfl hMapping fun _ => SameBut.mapping

theorem repairable_valueType (s : Scope) (hMapping : v.isMapping = true) :
    Repairable (SameBut "type" v) (s.place ++ [.field "value"]) (fun value =>
      [s.rule [.field "value", .field "type"] (.unknownValueType (.ofValue (value.field "type")))
        ((value.field "type").asString?.bind ValueType.ofTag?).isSome]) v :=
  .leaf "type" (fun u => s.rule [.field "value", .field "type"] (.unknownValueType (.ofValue u))
    (u.asString?.bind ValueType.ofTag?).isSome) (.string "string") (by simp [Scope.rule])
    (.string "string") ⟨rfl, rfl⟩ rfl hMapping fun _ => id

/-- The fields that only some types of parameters have. -/
def kindFields : List String := ["default", "items", "key", "value"]

theorem repairable_objectRules (s : Scope) (hMapping : v.isMapping = true)
    (hKeeps : ∀ key ∈ kindFields, ∀ v', SameBut key v v' → keeps v') :
    Repairable keeps s.place s.objectRules v := by
  have hDefault := hKeeps "default" (by decide)
  have hKey := hKeeps "key" (by decide)
  have hValue := hKeeps "value" (by decide)
  unfold Scope.objectRules
  dsimp only
  -- the description of the values has three parts, and the default is looked at twice
  refine .append (.append (.append (.append (.append ?default fun _ => ?key) fun _ => ?value)
    fun hFront => ?placeholder) fun hFront => ?type) fun hFront => ?entries
  case default =>
    exact .optionalLeaf "default"
      (fun u => s.rule [.field "default"] .defaultNotMapping u.isMapping) (record []) rfl
      proper_record_nil ⟨rfl, rfl⟩ rfl rfl hMapping hDefault
  case key =>
    refine .field "key" _ (repairable_keyDescriptor s _) hMapping
      fun v' hSame _ => ⟨hKey v' hSame, ?_⟩
    simp [hSame.field]
  case value =>
    refine .leaf "value" (fun u => s.rule [.field "value"] .valueNotMapping u.isMapping) (record [])
      rfl proper_record_nil ⟨rfl, rfl⟩ rfl hMapping fun v' hSame => ⟨hValue v' hSame, ?_⟩
    simp [hSame.field]
  case placeholder =>
    have hDescriptor : (v.field "value").isMapping = true :=
      hFront (s.rule [.field "value"] .valueNotMapping (v.field "value").isMapping) (by simp)
    refine .field "value" _ (repairable_valuePlaceholder s hDescriptor) hMapping
      fun v' hSame hDescriptor' => ⟨hValue v' hSame, ?_⟩
    simp [hSame.field, hDescriptor', hDescriptor]
  case type =>
    have hDescriptor : (v.field "value").isMapping = true :=
      hFront (s.rule [.field "value"] .valueNotMapping (v.field "value").isMapping) (by simp)
    refine .field "value" _ (repairable_valueType s hDescriptor) hMapping
      fun v' hSame hDescriptor' => ⟨hValue v' hSame, ?_⟩
    simp [hSame.field, hDescriptor'.mapping, hDescriptor'.field, hDescriptor]
  case entries =>
    obtain ⟨type, hType⟩ : ∃ type,
        ((v.field "value").field "type").asString?.bind ValueType.ofTag? = some type :=
      Option.isSome_iff_exists.mp (hFront (s.rule [.field "value", .field "type"]
        (.unknownValueType (.ofValue ((v.field "value").field "type")))
        (((v.field "value").field "type").asString?.bind ValueType.ofTag?).isSome) (by simp))
    cases hNull : (v.field "default").isNull with
    | true => exact .nil (by rw [hType, Scope.typedDefaultRules, entries_of_isNull hNull]; rfl)
    | false =>
      have hEntries : (v.field "default").isMapping = true :=
        hFront (s.rule [.field "default"] .defaultNotMapping (v.field "default").isMapping)
          (by simp [optionalRules, hNull])
      have hRepair : Repairable
          (fun v' => SameBut "default" v v' ∧ (v'.field "default").isMapping = true) s.place
          (fun v => (v.field "default").entries.flatMap (s.defaultEntryRules type)) v :=
        .field "default" _ (repairable_defaultEntries s type _) hMapping
          fun _ hSame hEntries' => ⟨hSame, hEntries'⟩
      refine (hRepair.congr (by rw [hType]; rfl) ?_).mono ?_
      · rintro v' ⟨hSame, -⟩
        rw [hSame.field "value" (by decide), hType]
        rfl
      · rintro v' ⟨hSame, hEntries'⟩
        refine ⟨hDefault v' hSame, ?_⟩
        simp [optionalRules, isNull_of_isMapping hEntries', hNull, hEntries', hEntries, hSame.field]

/-! ## Parameters -/

section

variable (s : Scope) (hMapping : v.isMapping = true)

include hMapping

theorem repairable_stringRules {key : String} (hKeeps : ∀ v', SameBut key v v' → keeps v') :
    Repairable keeps s.place (fun v => s.stringRules v key) v :=
  .optionalLeaf key (fun u => s.rule [.field key] (.notString key (.ofValue u)) u.isString)
    (.string "") rfl (.string "") ⟨rfl, rfl⟩ rfl rfl hMapping hKeeps

theorem repairable_boolRules {key : String} (hKeeps : ∀ v', SameBut key v v' → keeps v') :
    Repairable keeps s.place (fun v => s.boolRules v key) v :=
  .optionalLeaf key (fun u => s.rule [.field key] (.notBool key (.ofValue u)) u.isBool) (.bool true)
    rfl (.bool true) ⟨rfl, rfl⟩ rfl rfl hMapping hKeeps

theorem repairable_items (hKeeps : ∀ v', SameBut "items" v v' → keeps v') :
    Repairable keeps s.place
      (fun v => optionalRules (v.field "items") (s.itemsRules (v.field "items"))) v := by
  have hItems : Repairable (fun _ => True) (s.place ++ [.field "items"])
      (fun u => optionalRules u (s.itemsRules u)) (v.field "items") :=
    .optional fun _ => (repairable_itemsRules s _).mono fun _ hNull => ⟨trivial, hNull⟩
  exact .field "items" _ hItems hMapping fun v' hSame _ => hKeeps v' hSame

/-- A default that is a list, of which the items are checked as well. -/
theorem repairable_listDefault {fault : ParameterFault} {p : Value → Bool}
    (hKeeps : ∀ v', SameBut "default" v v' → keeps v') :
    Repairable keeps s.place (fun v => optionalRules (v.field "default")
      [s.rule [.field "default"] .defaultNotArray (v.field "default").isList,
        s.rule [.field "default"] fault ((v.field "default").items.all p)]) v := by
  have hList : Repairable (fun _ => True) (s.place ++ [.field "default"]) (fun u => optionalRules u
      [s.rule [.field "default"] .defaultNotArray u.isList,
        s.rule [.field "default"] fault (u.items.all p)]) (v.field "default") := by
    refine .optional fun _ => .cons (.here (.sequence []) rfl (fun _ => .sequence (by simp))
      ⟨trivial, rfl⟩ ⟨rfl, rfl⟩ rfl) fun (hList : (v.field "default").isList = true) => ?_
    refine .here (.sequence []) rfl (fun _ => .sequence (by simp)) ⟨⟨trivial, rfl⟩, ?_⟩
      ⟨rfl, rfl⟩ rfl
    rw [hList]
    rfl
  exact .field "default" _ hList hMapping fun v' hSame _ => hKeeps v' hSame

variable (hKeeps : ∀ key ∈ kindFields, ∀ v', SameBut key v v' → keeps v')

include hKeeps

theorem repairable_kindRules : Repairable keeps s.place s.kindRules v := by
  have hDefault := hKeeps "default" (by decide)
  have hItems := hKeeps "items" (by decide)
  unfold Scope.kindRules
  cases hType : s.type with
  | string =>
    refine (repairable_stringRules s hMapping hDefault).append fun _ => ?_
    refine repairable_items s hMapping fun v' hSame => ⟨hItems v' hSame, ?_⟩
    simp [Scope.stringRules, hSame.field]
  | setOfStrings =>
    refine (repairable_listDefault s hMapping hDefault).append fun _ => ?_
    refine repairable_items s hMapping fun v' hSame => ⟨hItems v' hSame, ?_⟩
    simp [hSame.field]
  | number =>
    exact .optionalLeaf "default"
      (fun u => s.rule [.field "default"] (.defaultNotNumber (.ofValue u)) u.isNumber)
      (.number (.whole 0)) rfl (.number _) ⟨rfl, rfl⟩ rfl rfl hMapping hDefault
  | setOfNumbers => exact repairable_listDefault s hMapping hDefault
  | object => exact repairable_objectRules s hMapping hKeeps

end

theorem repairable_scopeRules (s : Scope) (hMapping : v.isMapping = true) :
    Repairable (fun v' => v'.field "type" = v.field "type" ∧ v'.field "name" = v.field "name" ∧
      v'.isMapping = true) s.place s.rules v := by
  have hKeeps {key : String} {v' : Value} (hType : "type" ≠ key) (hName : "name" ≠ key)
      (hSame : SameBut key v v') : v'.field "type" = v.field "type" ∧
        v'.field "name" = v.field "name" ∧ v'.isMapping = true :=
    ⟨hSame.field _ hType, hSame.field _ hName, hSame.mapping⟩
  unfold Scope.rules
  refine .append (.append (.append (repairable_stringRules s hMapping ?label)
    fun _ => repairable_boolRules s hMapping ?required)
    fun _ => repairable_stringRules s hMapping ?placeholder)
    fun _ => repairable_kindRules s hMapping ?kind
  case label => exact fun v' hSame => hKeeps (by decide) (by decide) hSame
  case required =>
    refine fun v' hSame => ⟨hKeeps (by decide) (by decide) hSame, ?_⟩
    simp [Scope.stringRules, hSame.field]
  case placeholder =>
    refine fun v' hSame => ⟨hKeeps (by decide) (by decide) hSame, ?_⟩
    simp [Scope.stringRules, Scope.boolRules, hSame.field]
  case kind =>
    intro key hKey v' hSame
    have hOthers : ∀ key ∈ kindFields,
        ∀ other ∈ ["type", "name", "label", "required", "placeholder"], other ≠ key := by
      decide
    have hNe := hOthers key hKey
    refine ⟨hKeeps (hNe _ (by simp)) (hNe _ (by simp)) hSame, ?_⟩
    simp [Scope.stringRules, Scope.boolRules, hSame.field, hNe]

theorem repairable_parameterRules (place : Place) (v : Value) :
    Repairable (fun _ => True) place (parameterRules place) v := by
  unfold parameterRules
  dsimp only
  simp only [List.cons_append, List.nil_append]
  refine .cons (.here (record []) rfl (fun _ => proper_record_nil) trivial
    ⟨rfl, rfl⟩ rfl) fun (hMapping : v.isMapping = true) => ?_
  refine .cons (.leaf "type" (fun u => ⟨place ++ [.field "type"], .unknownParameterType (.ofValue u),
    (u.asString?.bind ParameterType.ofTag?).isSome⟩) (.string "string") rfl (.string "string")
    ⟨rfl, rfl⟩ rfl hMapping ?_)
    fun (hType : ((v.field "type").asString?.bind ParameterType.ofTag?).isSome = true) => ?_
  · intro v' hSame
    simp [hSame.mapping, hMapping]
  refine .cons (.leaf "name"
    (fun u => ⟨place ++ [.field "name"], .parameterNameNotString, u.isString⟩) (.string "") rfl
    (.string "") ⟨rfl, rfl⟩ rfl hMapping ?_) fun _ => ?_
  · intro v' hSame
    simp [hSame.mapping, hMapping, hSame.field]
  obtain ⟨type, hTag⟩ := Option.isSome_iff_exists.mp hType
  have hRules := repairable_scopeRules ⟨place, type, (v.field "name").asString?.getD ""⟩ hMapping
  refine (hRules.congr (by rw [hTag]; rfl) ?_).mono ?_
  · rintro v' ⟨hType', hName', -⟩
    rw [hType', hTag, typedRules, hName']
  · rintro v' ⟨hType', hName', hMapping'⟩
    simp [hMapping', hMapping, hType', hName']

/-! ## Documents -/

/-- A list in `schema`, which may be missing. -/
theorem repairable_schemaField {key : String} {rules : Value → List Rule}
    (hNull : ∀ u, u.isNull = true → rules u = [])
    (h : ∀ u, Repairable (fun _ => True) [.field "schema", .field key] rules u)
    (hMapping : v.isMapping = true) (hKeeps : ∀ v', SameBut "schema" v v' →
      SameBut key (v.field "schema") (v'.field "schema") → keeps v') :
    Repairable keeps [] (fun v => rules ((v.field "schema").field key)) v := by
  cases hSchema : (v.field "schema").isMapping with
  | true =>
    have hField : Repairable (SameBut key (v.field "schema")) ([] ++ [.field "schema"])
        (fun u => rules (u.field key)) (v.field "schema") :=
      .field key rules (h _) hSchema fun _ hSame _ => hSame
    exact .field "schema" _ hField hMapping hKeeps
  | false =>
    have hEntries : (v.field "schema").entries = [] := by
      unfold Value.isMapping at hSchema
      unfold Value.entries
      rw [Option.isNone_iff_eq_none.mp (Option.isSome_eq_false_iff.mp hSchema)]
      rfl
    exact .nil (hNull _ (by rw [Value.field, hEntries]; rfl))

theorem repairable_decisionListRules (v : Value) :
    Repairable (fun _ => True) decisionPlace decisionListRules v :=
  .optional fun _ => .list .decisionNotArray repairable_decisionRules
    fun _ hList => ⟨trivial, isNull_of_isList hList⟩

theorem repairable_parameterListRules (v : Value) :
    Repairable (fun _ => True) parametersPlace parameterListRules v :=
  .optional fun _ => .list .parametersNotArray repairable_parameterRules
    fun _ hList => ⟨trivial, isNull_of_isList hList⟩

/-- Whichever rule a document breaks first, it can be repaired. -/
theorem repairable_documentRules (document : Value) :
    Repairable (fun _ => True) [] documentRules document := by
  have hMapping (h : (headerRule document).kept = true) : document.isMapping = true := by
    obtain ⟨title, hTitle⟩ := Option.isSome_iff_exists.mp (headerRule_kept_iff.mp h).1
    exact isMapping_of_field hTitle
  unfold documentRules
  refine .append (.append (.append ?header fun hFront => ?decision) fun hFront => ?policy)
    fun hFront => ?parameters
  case header =>
    exact .here (record [("title", .string ""), ("description", .string "")]) rfl
      (fun _ => proper_record (by decide) (by simp [Value.Proper.string])) trivial ⟨rfl, rfl⟩ rfl
  case decision =>
    refine repairable_schemaField (fun u h => by simp [decisionListRules, optionalRules, h])
      repairable_decisionListRules (hMapping (hFront _ (by simp))) fun v' hSame _ => ⟨trivial, ?_⟩
    simp [headerRule, hSame.field]
  case policy =>
    have hPolicy : Repairable (fun _ => True) ([] ++ [.field "policy"])
        (fun u => optionalRules u (policyRules u)) (document.field "policy") :=
      .optional fun _ => (repairable_policyRules _).mono fun _ h => ⟨trivial, isNull_of_isMapping h⟩
    refine .field "policy" _ hPolicy (hMapping (hFront _ (by simp))) fun v' hSame _ => ⟨trivial, ?_⟩
    simp [headerRule, hSame.field]
  case parameters =>
    refine repairable_schemaField (fun u h => by simp [parameterListRules, optionalRules, h])
      repairable_parameterListRules (hMapping (hFront _ (by simp))) fun v' hSame hSchema =>
        ⟨trivial, ?_⟩
    simp [headerRule, hSame.field, hSchema.field]

/-! ## Violations -/

theorem firstBroken?_eq_none {rules : List Rule} (h : ∀ r ∈ rules, r.kept = true) :
    firstBroken? rules = none := by
  unfold firstBroken?
  rw [List.find?_eq_none.mpr fun r hr => by simp [h r hr], Option.map_none]

/-- Behind rules that are kept, only what is behind them is reported. -/
theorem firstBroken?_behind {front back : List Rule} {rule : Rule}
    (hFront : ∀ r ∈ front, r.kept = true) (hKept : rule.kept = true) :
    firstBroken? (front ++ rule :: back) = firstBroken? back := by
  rw [firstBroken?_append, firstBroken?_eq_none hFront, Option.none_or, firstBroken?_cons,
    if_pos hKept]

/-- The violation `e` of a document is resolved by the value `w`, put where `moves` lead. -/
structure Resolves (document : Value) (e : Violation) (moves : List Move) (w : Value) : Prop where
  /-- The moves go to the position that the path of the violation is read as. -/
  position : ∃ place, Place.read? e.path = some place ∧ document.Locates place moves
  proper : document.Proper → (document.put moves w).Proper
  /-- The broken rule is kept now and those before it are the same. The document is accepted, or it
      fails with a rule that stands behind. -/
  later : ∃ front rule back rule' back',
    (documentRules document = front ++ rule :: back ∧ (∀ r ∈ front, r.kept = true) ∧
      rule.kept = false ∧ rule.violation = e) ∧
    (documentRules (document.put moves w) = front ++ rule' :: back' ∧ rule.SameCheck rule' ∧
      rule'.kept = true) ∧
    ((∃ metadata, Metadata.ofDocument (document.put moves w) = .ok metadata) ∨
      ∃ e', Metadata.ofDocument (document.put moves w) = .error e' ∧ firstBroken? back' = some e')

end Schema

open Schema in
/-- The path of a violation leads to a position of the document, of which at most the last field is
    missing; and some value at this position makes the document keep the rule that it breaks, such
    that it is accepted or fails later in the order of the schema. -/
theorem Metadata.exists_resolves_of_error {document : Value} {e : Violation}
    (h : Metadata.ofDocument document = .error e) : ∃ moves w, Resolves document e moves w := by
  obtain ⟨front, rule, back, hRules, hFront, hBroken, rfl⟩ :=
    firstBroken?_eq_some_iff.mp (ofDocument_eq_error_iff.mp h)
  obtain ⟨steps, moves, w, hRepair⟩ :=
    repairable_documentRules document front rule back hRules hFront hBroken
  obtain ⟨rule', back', hRules', hCheck, hKept⟩ := hRepair.rules
  refine ⟨moves, w, {
    position := ⟨rule.violation.place, Violation.read?_path h, ?_⟩
    proper := hRepair.proper
    later := ⟨front, rule, back, rule', back', ⟨hRules, hFront, hBroken, rfl⟩,
      ⟨hRules', hCheck, hKept⟩, ?_⟩ }⟩
  · have hPlace : rule.violation.place = steps := hRepair.place
    rw [hPlace]
    exact hRepair.locates
  · cases hResult : Metadata.ofDocument (document.put moves w) with
    | ok metadata => exact .inl ⟨metadata, rfl⟩
    | error e' =>
      rw [ofDocument_eq_error_iff, hRules', firstBroken?_behind hFront hKept] at hResult
      exact .inr ⟨e', rfl, hResult⟩

namespace Schema

/-- A document whose parameter has a wrong value in its default, under a key with points and
    brackets. -/
def misfiled : Value :=
  .mapping (withParameter
    [(.string "type", .string "object"), (.string "name", .string "n"),
      (.string "value", .mapping [(.string "type", .string "string")]),
      (.string "default", .tagged "d" (.mapping
        [(.number (.whole 1), .string "x"), (.string "a.b[1]", .bool true)]))])

/-- The path of the violation in `misfiled`, and that it can be resolved. -/
theorem exists_resolves_misfiled :
    ∃ e, Metadata.ofDocument misfiled = .error e ∧ e.path = "schema.parameters[0].default.a.b[1]" ∧
      ∃ moves w, Resolves misfiled e moves w := by
  have hError : Metadata.ofDocument misfiled = .error
      ⟨[.field "schema", .field "parameters", .item 0, .field "default", .entry "a.b[1]"],
        .parameter .object "n" .entryNotString⟩ := by
    decide +kernel
  exact ⟨_, hError, by decide +kernel, Metadata.exists_resolves_of_error hError⟩

end Schema

end SnippetAudit
