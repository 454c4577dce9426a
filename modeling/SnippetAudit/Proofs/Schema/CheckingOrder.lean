import SnippetAudit.Proofs.Schema.Rules

/-!
# The order of checking

Each check of the schema fails with the first broken rule of its part of the document, and passes
where none is broken. So the order in which rules stand in `documentRules` is the order in which
the checks are made, whatever else a document breaks.

Results:
* `obeys_bind`, `obeys_optional`, `obeys_checkEach`: one check after another, optional fields and
  lists.
* `obeys_checkDecision`, `obeys_checkPolicy`, `obeys_checkParameter`: the parts of a document.
* `obeys_ofDocument`: a document as a whole.
-/

namespace SnippetAudit.Schema

open Yaml (Value Entries)

variable {α β γ : Type}

/-! ## Checks and rules -/

/-- The violation with which a check fails. -/
def violation? : Checked α → Option Violation
  | .ok _ => none
  | .error e => some e

/-- A check fails with the first broken rule, and passes where no rule is broken. -/
def Obeys (x : Checked α) (rules : List Rule) : Prop := violation? x = firstBroken? rules

theorem obeys_pure (a : α) : Obeys (pure a) [] := rfl

theorem obeys_error (place : Place) (fault : Fault) (rules : List Rule) :
    Obeys (.error ⟨place, fault⟩ : Checked α) (⟨place, fault, false⟩ :: rules) := rfl

theorem obeys_bind {x : Checked α} {f : α → Checked β} {rules rules' : List Rule}
    (hx : Obeys x rules) (hf : ∀ a, x = .ok a → Obeys (f a) rules') :
    Obeys (x >>= f) (rules ++ rules') := by
  unfold Obeys at hx ⊢
  rw [firstBroken?_append, ← hx]
  cases x with
  | ok a => exact hf a rfl
  | error e => rfl

/-- What follows the last check cannot fail. -/
theorem obeys_bind_pure {x : Checked α} {rules : List Rule} (hx : Obeys x rules) (f : α → β) :
    Obeys (x >>= fun a => pure (f a)) rules := by
  have hBind := obeys_bind hx fun a _ => obeys_pure (f a)
  rw [List.append_nil] at hBind
  exact hBind

theorem obeys_map {x : Checked α} {f : α → β} {rules : List Rule} (hx : Obeys x rules) :
    Obeys (x.map f) rules := by
  unfold Obeys at hx ⊢
  rw [← hx]
  cases x <;> rfl

theorem obeys_require {value : Option α} {place : Place} {fault : Fault} {kept : Bool}
    (hKept : value.isSome = kept) : Obeys (require value place fault) [⟨place, fault, kept⟩] := by
  cases value <;> subst hKept <;> rfl

theorem obeys_require_bind {value : Option α} {place : Place} {fault : Fault} {kept : Bool}
    {f : α → Checked β} {rules : List Rule} (hKept : value.isSome = kept)
    (hf : ∀ a, value = some a → Obeys (f a) rules) :
    Obeys (require value place fault >>= f) (⟨place, fault, kept⟩ :: rules) := by
  have hRequire : Obeys (require value place fault) [⟨place, fault, kept⟩] := obeys_require hKept
  refine obeys_bind hRequire ?_
  intro a ha
  exact hf a (require_eq_ok_iff.mp ha)

/-- Two values that have to be there count as one rule if they are missed in the same way. -/
theorem obeys_require_both {value : Option α} {value' : Option β} {place : Place} {fault : Fault}
    {f : α → β → Checked γ} {rules : List Rule} (hf : ∀ a b, Obeys (f a b) rules) :
    Obeys (require value place fault >>= fun a => require value' place fault >>= f a)
      (⟨place, fault, value.isSome && value'.isSome⟩ :: rules) := by
  cases value with
  | none => exact obeys_error place fault rules
  | some a =>
    change Obeys (require value' place fault >>= f a) _
    exact obeys_require_bind (Bool.true_and _).symm fun b _ => hf a b

/-! ## Fields -/

/-- What is checked in a mapping is checked in its entries. -/
theorem obeys_mapping_bind {v : Value} {place : Place} {fault : Fault} {f : Entries → Checked α}
    {rules : List Rule} (hf : Obeys (f v.entries) rules) :
    Obeys (require v.asMapping? place fault >>= f) (⟨place, fault, v.isMapping⟩ :: rules) := by
  refine obeys_require_bind rfl ?_
  intro entries hEntries
  rw [Value.entries, hEntries, Option.getD_some] at hf
  exact hf

/-- What is checked in a list is checked in its items. -/
theorem obeys_list_bind {v : Value} {place : Place} {fault : Fault} {f : List Value → Checked α}
    {rules : List Rule} (hf : Obeys (f v.items) rules) :
    Obeys (require v.asSequence? place fault >>= f) (⟨place, fault, v.isList⟩ :: rules) := by
  refine obeys_require_bind rfl ?_
  intro items hItems
  rw [Value.items, hItems, Option.getD_some] at hf
  exact hf

/-- A reader that does not read null does not tell null from a missing field. -/
theorem get?_bind {read : Value → Option α} (hNull : read .null = none) (v : Value) (key : String) :
    (v.entries.get? key).bind read = read (v.field key) := by
  unfold Value.field
  cases v.entries.get? key with
  | none => exact hNull.symm
  | some w => rfl

theorem ofField_get? (v : Value) (key : String) :
    Found.ofField (v.entries.get? key) = .ofValue (v.field key) := by
  unfold Value.field
  cases v.entries.get? key <;> rfl

theorem filter_isTruthy_get? (v : Value) (key : String) :
    (v.entries.get? key).filter Value.isTruthy =
      if (v.field key).isTruthy then some (v.field key) else none := by
  unfold Value.field
  cases v.entries.get? key with
  | none => rfl
  | some w => rw [Option.filter_some, Option.getD_some]

theorem present?_eq (v : Value) (key : String) :
    v.entries.present? key = if (v.field key).isNull then none else some (v.field key) := by
  unfold Entries.present? Value.field
  cases v.entries.get? key with
  | none => rfl
  | some w =>
    rw [Option.filter_some, Option.getD_some]
    cases w.isNull <;> rfl

theorem entries_of_isNull {v : Value} (h : v.isNull = true) : v.entries = [] := by
  rw [Value.entries, Value.asMapping?, isNull_iff.mp h]
  rfl

theorem obeys_optional {v : Value} {key : String} {check : Value → Checked α} {rules : List Rule}
    (h : Obeys (check (v.field key)) rules) :
    Obeys (optional (v.entries.present? key) check) (optionalRules (v.field key) rules) := by
  rw [present?_eq, optionalRules]
  cases (v.field key).isNull with
  | true => rfl
  | false => exact obeys_map h

/-! ## Lists -/

theorem obeys_checkEach {check : Place → Value → Checked α} {rules : Place → Value → List Rule}
    (h : ∀ place v, Obeys (check place v) (rules place v)) (base : Place) (i : Nat)
    (items : List Value) :
    Obeys (checkEach (fun i => check (base ++ [.item i])) i items)
      (numbered base rules i items) := by
  induction items generalizing i with
  | nil => rfl
  | cons v items ih =>
    rw [checkEach, numbered_cons]
    refine obeys_bind (h _ v) ?_
    intro a _
    exact obeys_bind_pure (ih (i + 1)) (a :: ·)

theorem isSome_mapM {read : Value → Option α} (items : List Value) :
    (items.mapM read).isSome = items.all fun v => (read v).isSome := by
  induction items with
  | nil => rfl
  | cons v items ih =>
    rw [List.mapM_cons, List.all_cons, ← ih]
    cases read v with
    | none => rfl
    | some a => cases items.mapM read <;> rfl

/-! ## Decision -/

theorem obeys_checkToggleEntry (place : Place) (v : Value) :
    Obeys (checkToggleEntry place v) (toggleRules place v) := by
  unfold checkToggleEntry toggleRules
  refine obeys_mapping_bind ?_
  rw [get?_bind rfl, get?_bind rfl, ofField_get?]
  refine obeys_require_bind rfl ?_
  intro key _
  refine obeys_require_bind rfl ?_
  intro on _
  exact obeys_pure _

theorem obeys_checkToggle (place : Place) (v : Value) :
    Obeys (checkToggle place v.entries) (decisionTagRules place v (some "toggle")) := by
  unfold checkToggle decisionTagRules listRules
  rw [filter_isTruthy_get?, get?_bind rfl]
  refine obeys_require_bind (by cases (v.field "label").isTruthy <;> rfl) ?_
  intro label hLabel
  obtain rfl : v.field "label" = label := by
    split at hLabel
    · exact Option.some.inj hLabel
    · cases hLabel
  refine obeys_require_bind rfl ?_
  intro text _
  refine obeys_list_bind ?_
  have hEach := obeys_checkEach obeys_checkToggleEntry (place ++ [.field "toggles"]) 0
    (v.field "toggles").items
  simp only [List.append_assoc] at hEach
  exact obeys_bind_pure hEach _

theorem obeys_checkKeyValue (place : Place) (tag : String) (v : Value) :
    Obeys (checkKeyValue place tag v.entries)
      [⟨place, .keyOrValueNotString tag,
        (v.field "key").isString && (v.field "value").isString⟩] := by
  unfold checkKeyValue Value.isString
  rw [get?_bind rfl, get?_bind rfl]
  cases (v.field "key").asString? with
  | none => exact obeys_error place _ []
  | some key =>
    cases (v.field "value").asString? with
    | none => exact obeys_error place _ []
    | some value => rfl

theorem obeys_checkDecision (place : Place) (v : Value) :
    Obeys (checkDecision place v) (decisionRules place v) := by
  unfold checkDecision decisionRules
  refine obeys_mapping_bind ?_
  rw [get?_bind rfl, ofField_get?]
  split
  · rename_i hTag
    rw [hTag]
    exact obeys_map (obeys_checkKeyValue place "rego" v)
  · rename_i hTag
    rw [hTag]
    exact obeys_map (obeys_checkKeyValue place "string" v)
  · rename_i hTag
    rw [hTag]
    exact obeys_checkToggle place v
  · -- the type is not a tag, so the rule for it is the first that is broken
    rename_i hRego hString hToggle
    have hUnknown : (v.field "type").asString?.any (Decision.tags.contains ·) = false := by
      cases hTag : (v.field "type").asString? with
      | none => rfl
      | some tag =>
        rw [hTag] at hRego hString hToggle
        simp only [Option.some.injEq] at hRego hString hToggle
        simpa [Decision.tags] using And.intro hToggle (And.intro hRego hString)
    rw [hUnknown]
    exact obeys_error _ _ _

/-- A list whose items are checked at their places. -/
theorem obeys_checkList {check : Place → Value → Checked α} {rules : Place → Value → List Rule}
    (h : ∀ place v, Obeys (check place v) (rules place v)) (base : Place) (fault : Fault)
    (v : Value) :
    Obeys (require v.asSequence? base fault >>= checkEach (fun i => check (base ++ [.item i])) 0)
      (listRules base fault rules v) := by
  unfold listRules
  refine obeys_list_bind ?_
  exact obeys_checkEach h base 0 v.items

theorem obeys_checkDecisions (v : Value) :
    Obeys (checkDecisions v) (listRules decisionPlace .decisionNotArray decisionRules v) :=
  obeys_checkList obeys_checkDecision decisionPlace .decisionNotArray v

/-! ## Policy -/

theorem obeys_checkPolicy (v : Value) : Obeys (checkPolicy v) (policyRules v) := by
  unfold checkPolicy policyRules
  refine obeys_mapping_bind ?_
  rw [get?_bind rfl]
  refine obeys_mapping_bind ?_
  rw [get?_bind rfl, get?_bind rfl]
  refine obeys_require_bind rfl ?_
  intro tag hTag
  rw [hTag]
  by_cases hRego : tag = "rego"
  · subst hRego
    exact obeys_bind_pure (obeys_require rfl) _
  · have hKept : decide (some tag = some "rego") = false := by simp [hRego]
    rw [hKept]
    simp only [if_pos hRego]
    exact obeys_error _ _ _

/-! ## Parameters -/

theorem Scope.obeys_optionalString (s : Scope) (v : Value) (key : String) :
    Obeys (s.optionalString v.entries key) (s.stringRules v key) :=
  obeys_optional (obeys_require rfl)

theorem Scope.obeys_optionalBool (s : Scope) (v : Value) (key : String) :
    Obeys (s.optionalBool v.entries key) (s.boolRules v key) :=
  obeys_optional (obeys_require rfl)

/-- The sources that are set, with what they are set to. -/
theorem sourcesSet_eq (v : Value) :
    sourcesSet v.entries = (Scope.sources v).map fun source => (source, v.field source.key) := by
  unfold sourcesSet Scope.sources
  rw [← List.filterMap_eq_map, List.filterMap_filter]
  apply List.filterMap_congr
  intro source _
  rw [filter_isTruthy_get?]
  cases (v.field source.key).isTruthy <;> rfl

theorem Scope.obeys_checkItems (s : Scope) (v : Value) :
    Obeys (s.checkItems v) (s.itemsRules v) := by
  unfold Scope.checkItems Scope.itemsRules Value.isList
  cases hList : v.asSequence? with
  | some list =>
    have hItems : v.items = list := by rw [Value.items, hList, Option.getD_some]
    rw [hItems]
    exact obeys_map (obeys_require (isSome_mapM list))
  | none =>
    refine obeys_mapping_bind ?_
    rw [get?_bind rfl]
    refine obeys_require_bind rfl ?_
    intro text _
    rw [sourcesSet_eq]
    cases hSources : Scope.sources v with
    | nil => exact obeys_error _ _ _
    | cons source others =>
      cases others with
      | nil => exact obeys_bind_pure (obeys_require rfl) _
      | cons other others =>
        simp only [List.map_cons, List.length_cons, List.length_map]
        exact obeys_error _ _ _

theorem Scope.obeys_checkStringsDefault (s : Scope) (v : Value) :
    Obeys (s.checkStringsDefault v)
      [s.rule [.field "default"] .defaultNotArray v.isList,
        s.rule [.field "default"] .defaultNotStrings (v.items.all (·.isString))] := by
  unfold Scope.checkStringsDefault
  refine obeys_list_bind ?_
  exact obeys_require (isSome_mapM v.items)

theorem Scope.obeys_checkNumbersDefault (s : Scope) (v : Value) :
    Obeys (s.checkNumbersDefault v)
      [s.rule [.field "default"] .defaultNotArray v.isList,
        s.rule [.field "default"] .defaultNotNumbers (v.items.all (·.isNumber))] := by
  unfold Scope.checkNumbersDefault
  refine obeys_list_bind ?_
  exact obeys_require (isSome_mapM v.items)

theorem Scope.obeys_checkDefaultValue (s : Scope) (type : ValueType) (key : String) (v : Value) :
    Obeys (s.checkDefaultValue type key v) (s.defaultValueRules key v type) := by
  cases type with
  | string => exact obeys_map (obeys_require rfl)
  | setOfStrings =>
    refine obeys_list_bind ?_
    exact obeys_map (obeys_require (isSome_mapM v.items))
  | setOfNumbers =>
    refine obeys_list_bind ?_
    exact obeys_map (obeys_require (isSome_mapM v.items))

theorem Scope.obeys_checkDefaultEntries (s : Scope) (type : ValueType) (found : ObjectDefault)
    (entries : Entries) :
    Obeys (s.checkDefaultEntries type found entries)
      (entries.flatMap (s.defaultEntryRules type)) := by
  induction entries generalizing found with
  | nil => rfl
  | cons entry entries ih =>
    obtain ⟨key, value⟩ := entry
    rw [List.flatMap_cons, Scope.defaultEntryRules, List.cons_append]
    refine obeys_require_bind rfl ?_
    intro text hText
    rw [hText]
    refine obeys_bind (s.obeys_checkDefaultValue type text value) ?_
    intro typed _
    exact ih _

theorem Scope.obeys_checkKeyDescriptor (s : Scope) (v : Value) :
    Obeys (s.checkKeyDescriptor v)
      [s.rule [.field "key"] .keyNotMapping v.isMapping,
        s.rule [.field "key", .field "placeholder"] .keyPlaceholderNotString
          (v.field "placeholder").isString] := by
  unfold Scope.checkKeyDescriptor
  refine obeys_mapping_bind ?_
  rw [get?_bind rfl]
  exact obeys_require rfl

/-- The default of an object parameter is typed as it was read before. -/
theorem Scope.obeys_checkTypedDefault (s : Scope) (v : Value) (type : ValueType)
    {default : Option Entries}
    (h : optional (v.entries.present? "default") s.checkMappingDefault = .ok default) :
    Obeys (s.checkTypedDefault type default)
      (s.typedDefaultRules (v.field "default") (some type)) := by
  rw [present?_eq] at h
  unfold Scope.typedDefaultRules
  cases hNull : (v.field "default").isNull with
  | true =>
    rw [hNull] at h
    cases h
    rw [entries_of_isNull hNull]
    rfl
  | false =>
    rw [hNull] at h
    obtain ⟨entries, hEntries, rfl⟩ := map_eq_ok_iff.mp h
    have hMapping := Scope.require_eq_ok_iff.mp hEntries
    have hSame : (v.field "default").entries = entries := by
      rw [Value.entries, hMapping, Option.getD_some]
    rw [hSame]
    exact obeys_map (s.obeys_checkDefaultEntries type [] entries)

theorem Scope.obeys_checkObject (s : Scope) (v : Value) :
    Obeys (s.checkObject v.entries) (s.objectRules v) := by
  unfold Scope.checkObject Scope.objectRules
  simp only [List.append_assoc, List.cons_append, List.nil_append]
  -- that the default is a mapping is checked first, its entries after the type of the values
  refine obeys_bind (obeys_optional (obeys_require rfl)) ?_
  intro default hDefault
  refine obeys_bind (obeys_optional (s.obeys_checkKeyDescriptor _)) ?_
  intro keyPlaceholder _
  rw [get?_bind rfl]
  refine obeys_mapping_bind ?_
  refine obeys_bind (obeys_optional (obeys_require rfl)) ?_
  intro valuePlaceholder _
  rw [get?_bind rfl, ofField_get?]
  refine obeys_require_bind rfl ?_
  intro type hType
  rw [hType]
  exact obeys_bind_pure (s.obeys_checkTypedDefault v type hDefault) _

theorem Scope.obeys_checkKind (s : Scope) (v : Value) :
    Obeys (s.checkKind v.entries) (s.kindRules v) := by
  have hItems := obeys_optional (s.obeys_checkItems (v.field "items"))
  unfold Scope.checkKind Scope.kindRules
  cases s.type with
  | string =>
    refine obeys_bind (s.obeys_optionalString v "default") ?_
    intro default _
    exact obeys_bind_pure hItems _
  | setOfStrings =>
    refine obeys_bind (obeys_optional (s.obeys_checkStringsDefault _)) ?_
    intro default _
    exact obeys_bind_pure hItems _
  | number => exact obeys_bind_pure (obeys_optional (obeys_require rfl)) _
  | setOfNumbers => exact obeys_bind_pure (obeys_optional (s.obeys_checkNumbersDefault _)) _
  | object => exact s.obeys_checkObject v

theorem obeys_checkParameter (place : Place) (v : Value) :
    Obeys (checkParameter place v) (parameterRules place v) := by
  unfold checkParameter parameterRules
  simp only [List.cons_append, List.nil_append]
  refine obeys_mapping_bind ?_
  rw [get?_bind rfl, get?_bind rfl, ofField_get?]
  refine obeys_require_bind rfl ?_
  intro type hType
  refine obeys_require_bind rfl ?_
  intro name hName
  rw [hType]
  unfold typedRules Scope.rules
  rw [hName]
  simp only [List.append_assoc]
  refine obeys_bind (Scope.obeys_optionalString _ v "label") ?_
  intro label _
  refine obeys_bind (Scope.obeys_optionalBool _ v "required") ?_
  intro required _
  refine obeys_bind (Scope.obeys_optionalString _ v "placeholder") ?_
  intro placeholder _
  exact obeys_bind_pure (Scope.obeys_checkKind _ v) _

theorem obeys_checkParameters (v : Value) :
    Obeys (checkParameters v) (listRules parametersPlace .parametersNotArray parameterRules v) :=
  obeys_checkList obeys_checkParameter parametersPlace .parametersNotArray v

/-! ## Documents -/

/-- A `schema` that is null or no mapping has no fields. -/
theorem schema_entries_eq (document : Value) :
    ((document.entries.present? "schema").map Value.entries).getD [] =
      (document.field "schema").entries := by
  rw [present?_eq]
  cases hNull : (document.field "schema").isNull with
  | true =>
    rw [entries_of_isNull hNull]
    rfl
  | false => rfl

/-- A document fails with its first broken rule. -/
theorem obeys_ofDocument (document : Value) :
    Obeys (Metadata.ofDocument document) (documentRules document) := by
  have hDecision := obeys_optional
    (obeys_checkDecisions ((document.field "schema").field "decision"))
  have hPolicy := obeys_optional (obeys_checkPolicy (document.field "policy"))
  have hParameters := obeys_optional
    (obeys_checkParameters ((document.field "schema").field "parameters"))
  unfold Metadata.ofDocument documentRules headerRule
  simp only [schema_entries_eq, @get?_bind _ Value.asString? rfl, List.append_assoc,
    List.cons_append, List.nil_append]
  refine obeys_require_both ?_
  intro title description
  refine obeys_bind hDecision ?_
  intro decision _
  refine obeys_bind hPolicy ?_
  intro policy _
  exact obeys_bind_pure hParameters _

end SnippetAudit.Schema
