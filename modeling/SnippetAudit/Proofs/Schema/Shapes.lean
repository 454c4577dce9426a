import SnippetAudit.Proofs.Schema.CheckingOrder

/-!
# What is read of a document

A shape says how much of a value is read: nothing; or of what kind it is and which scalar, its items,
and the fields that are read by name; or all its entries. Which fields are read by name may depend on
the tag under `type`. A missing field is read as null is.

The shape of a document lists every field that a check looks at. Two documents that are alike in
all that is read get the same metadata or the same violation, whatever else differs between them.

Results:
* `alike_refl`, `alike_of_isNull`, `alike_tagged`: what is alike in every shape.
* `asString?_congr` and its siblings: the readers do not tell apart what looks the same.
* `checkDecision_congr`, `checkPolicy_congr`, `checkParameter_congr`: the parts of a document.
* `ofDocument_congr`: a document as a whole.
-/

namespace SnippetAudit

open Yaml (Value Entries)

/-- The tag under `type`, if it is a string. -/
def Yaml.Value.typeTag? (v : Value) : Option String := (v.field "type").asString?

namespace Schema

variable {α β : Type}

/-! ## Specification -/

/-- How much of a value is read, tags aside. -/
inductive Shape where
  /-- Nothing. -/
  | unread
  /-- Its kind, and which scalar it is; its items; its fields by name, after the tag under `type`. -/
  | node (item : Shape) (field : Option String → String → Shape)
  /-- Its kind, and all its entries in their order, the keys as they stand. -/
  | entries (value : Shape)

namespace Shape

/-- Kind and scalar only. -/
def scalar : Shape := node unread fun _ _ => unread

/-- A list of which every item is read. -/
def list (item : Shape) : Shape := node item fun _ _ => unread

/-- A mapping of which the same fields are read whatever its tag. -/
def record (field : String → Shape) : Shape := node unread fun _ => field

/-- A switch of a toggle decision. -/
def toggle : Shape := record fun
  | "key" | "value" => scalar
  | _ => unread

/-- The fields of a decision by its tag. -/
def decisionField : Option String → String → Shape
  | _, "type" => scalar
  | some "rego", "key" | some "rego", "value" => scalar
  | some "string", "key" | some "string", "value" => scalar
  | some "toggle", "label" => scalar
  | some "toggle", "toggles" => list toggle
  | _, _ => unread

/-- An entry of `schema.decision`. -/
def decision : Shape := node unread decisionField

/-- The rule of a policy. -/
def rule : Shape := record fun
  | "type" | "value" => scalar
  | _ => unread

/-- The mapping `policy`. -/
def policy : Shape := record fun
  | "rule" => rule
  | _ => unread

/-- The field `items`: a list of choices, or a query. -/
def items : Shape := node scalar fun _ => fun
  | "query" | "datasource" | "library" | "package" => scalar
  | _ => unread

/-- The descriptor of an object parameter's keys. -/
def keyDescriptor : Shape := record fun
  | "placeholder" => scalar
  | _ => unread

/-- The descriptor of an object parameter's values. -/
def valueDescriptor : Shape := record fun
  | "placeholder" | "type" => scalar
  | _ => unread

/-- The fields of a parameter by its type. -/
def parameterField : ParameterType → String → Shape
  | _, "type" | _, "name" | _, "label" | _, "required" | _, "placeholder" => scalar
  | .string, "default" | .number, "default" => scalar
  | .setOfStrings, "default" | .setOfNumbers, "default" => list scalar
  | .string, "items" | .setOfStrings, "items" => items
  | .object, "default" => entries (list scalar)
  | .object, "key" => keyDescriptor
  | .object, "value" => valueDescriptor
  | _, _ => unread

/-- What is read where the type is not known. -/
def typeField : String → Shape
  | "type" => scalar
  | _ => unread

/-- An entry of `schema.parameters`. -/
def parameter : Shape := node unread fun tag =>
  match tag.bind ParameterType.ofTag? with
  | some type => parameterField type
  | none => typeField

/-- The mapping `schema`. -/
def schema : Shape := record fun
  | "decision" => list decision
  | "parameters" => list parameter
  | _ => unread

/-- A document. -/
def document : Shape := record fun
  | "title" | "description" => scalar
  | "schema" => schema
  | "policy" => policy
  | _ => unread

/-- Nothing that is read differs. -/
def Alike : Shape → Value → Value → Prop
  | .unread, _, _ => True
  | .node item field, v, w =>
    Found.ofValue v = Found.ofValue w ∧ List.Forall₂ item.Alike v.items w.items ∧
      ∀ key, (field v.typeTag? key).Alike (v.field key) (w.field key)
  | .entries value, v, w =>
    Found.ofValue v = Found.ofValue w ∧
      List.Forall₂ (fun e e' => e.1 = e'.1 ∧ value.Alike e.2 e'.2) v.entries w.entries

end Shape

/-! ## Values that look the same -/

theorem untag_ne_tagged : ∀ (v : Value) (tag : String) (w : Value), v.untag ≠ .tagged tag w
  | .tagged _ v, tag, w => by rw [Value.untag_tagged]; exact untag_ne_tagged v tag w
  | .null, _, _ | .bool _, _, _ | .number _, _, _ | .string _, _, _ | .sequence _, _, _
  | .mapping _, _, _ => by simp [Value.untag]

/-- What looks the same is the same scalar, or both are sequences, or both are mappings. -/
theorem ofValue_eq_cases {v w : Value} (h : Found.ofValue v = Found.ofValue w) :
    v.untag = w.untag ∨ (∃ xs ys, v.untag = .sequence xs ∧ w.untag = .sequence ys) ∨
      ∃ es fs, v.untag = .mapping es ∧ w.untag = .mapping fs := by
  have hv := untag_ne_tagged v
  have hw := untag_ne_tagged w
  unfold Found.ofValue at h
  cases hv' : v.untag <;> cases hw' : w.untag <;> simp_all

/-- A reader that looks through tags and does not look into sequences and mappings reads the same
    of what looks the same. -/
theorem eq_of_ofValue_eq {read : Value → α} (hUntag : ∀ v : Value, read v.untag = read v)
    (hSequence : ∀ xs ys, read (.sequence xs) = read (.sequence ys))
    (hMapping : ∀ es fs, read (.mapping es) = read (.mapping fs)) {v w : Value}
    (h : Found.ofValue v = Found.ofValue w) : read v = read w := by
  rw [← hUntag v, ← hUntag w]
  rcases ofValue_eq_cases h with hSame | ⟨xs, ys, hv, hw⟩ | ⟨es, fs, hv, hw⟩
  · rw [hSame]
  · rw [hv, hw]
    exact hSequence xs ys
  · rw [hv, hw]
    exact hMapping es fs

section Readers

variable {v w : Value} (h : Found.ofValue v = Found.ofValue w)
include h

theorem asString?_congr : v.asString? = w.asString? :=
  eq_of_ofValue_eq Value.asString?_untag (fun _ _ => rfl) (fun _ _ => rfl) h

theorem asBool?_congr : v.asBool? = w.asBool? :=
  eq_of_ofValue_eq Value.asBool?_untag (fun _ _ => rfl) (fun _ _ => rfl) h

theorem asNumber?_congr : v.asNumber? = w.asNumber? :=
  eq_of_ofValue_eq Value.asNumber?_untag (fun _ _ => rfl) (fun _ _ => rfl) h

theorem isTruthy_congr : v.isTruthy = w.isTruthy :=
  eq_of_ofValue_eq Value.isTruthy_untag (fun _ _ => rfl) (fun _ _ => rfl) h

theorem isNull_congr : v.isNull = w.isNull :=
  eq_of_ofValue_eq (by simp [Value.isNull]) (fun _ _ => rfl) (fun _ _ => rfl) h

theorem isList_congr : v.isList = w.isList :=
  eq_of_ofValue_eq (by simp [Value.isList]) (fun _ _ => rfl) (fun _ _ => rfl) h

theorem isMapping_congr : v.isMapping = w.isMapping :=
  eq_of_ofValue_eq (by simp [Value.isMapping]) (fun _ _ => rfl) (fun _ _ => rfl) h

end Readers

/-! ## What is alike in every shape -/

namespace Shape

theorem alike_refl : ∀ (s : Shape) (v : Value), s.Alike v v
  | .unread, _ => trivial
  | .node item field, _ =>
    ⟨rfl, List.forall₂_same.mpr fun w _ => item.alike_refl w, fun key => (field _ key).alike_refl _⟩
  | .entries value, _ =>
    ⟨rfl, List.forall₂_same.mpr fun e _ => ⟨rfl, value.alike_refl e.2⟩⟩

/-- Nulls are alike, under whatever tags. -/
theorem alike_of_isNull (s : Shape) {v w : Value} (hv : v.isNull = true) (hw : w.isNull = true) :
    s.Alike v w := by
  rw [isNull_iff] at hv hw
  have hFound : Found.ofValue v = Found.ofValue w := by simp [Found.ofValue, hv, hw]
  have hEntries : v.entries = [] ∧ w.entries = [] := by
    simp [Value.entries, Value.asMapping?, hv, hw]
  cases s with
  | unread => trivial
  | node item field =>
    refine ⟨hFound, ?_, ?_⟩
    · simp [Value.items, Value.asSequence?, hv, hw]
    · intro key
      rw [Value.field, Value.field, hEntries.1, hEntries.2]
      exact alike_refl _ _
  | entries value =>
    refine ⟨hFound, ?_⟩
    rw [hEntries.1, hEntries.2]
    exact .nil

/-- Tags around values that are alike do not count. -/
theorem alike_untag_iff {s : Shape} {v w : Value} : s.Alike v.untag w.untag ↔ s.Alike v w := by
  have hField (u : Value) (key : String) : u.untag.field key = u.field key := by
    simp [Value.field, Value.entries]
  cases s with
  | unread => exact Iff.rfl
  | node item field => simp [Alike, Value.items, Value.typeTag?, hField]
  | entries value => simp [Alike, Value.entries]

theorem Alike.tagged {s : Shape} {v w : Value} (h : s.Alike v w) (tag : String) :
    s.Alike (.tagged tag v) (.tagged tag w) := by
  rw [← alike_untag_iff] at h ⊢
  rw [Value.untag_tagged, Value.untag_tagged]
  exact h

section Node

variable {item : Shape} {fields : Option String → String → Shape} {v w : Value}

theorem Alike.found (h : (node item fields).Alike v w) : Found.ofValue v = Found.ofValue w := h.1

theorem Alike.items (h : (node item fields).Alike v w) : List.Forall₂ item.Alike v.items w.items :=
  h.2.1

theorem Alike.field (h : (node item fields).Alike v w) (key : String) :
    (fields v.typeTag? key).Alike (v.field key) (w.field key) :=
  h.2.2 key

end Node

end Shape

/-! ## Checks of what is alike -/

theorem require_some_bind (a : α) (place : Place) (fault : Fault) (f : α → Checked β) :
    (require (some a) place fault >>= f) = f a := rfl

theorem mapping_bind_congr {v w : Value} {f g : Entries → Checked α}
    (hFound : Found.ofValue v = Found.ofValue w) (h : f v.entries = g w.entries) (place : Place)
    (fault : Fault) :
    (require v.asMapping? place fault >>= f) = (require w.asMapping? place fault >>= g) := by
  have hMapping := isMapping_congr hFound
  unfold Value.isMapping at hMapping
  unfold Value.entries at h
  cases hv : v.asMapping? <;> cases hw : w.asMapping? <;> simp [hv, hw] at h hMapping
  · rfl
  · exact h

theorem list_bind_congr {v w : Value} {f g : List Value → Checked α}
    (hFound : Found.ofValue v = Found.ofValue w) (h : f v.items = g w.items) (place : Place)
    (fault : Fault) :
    (require v.asSequence? place fault >>= f) = (require w.asSequence? place fault >>= g) := by
  have hList := isList_congr hFound
  unfold Value.isList at hList
  unfold Value.items at h
  cases hv : v.asSequence? <;> cases hw : w.asSequence? <;> simp [hv, hw] at h hList
  · rfl
  · exact h

theorem optional_congr {v w : Value} {key : String} {check check' : Value → Checked α}
    (hFound : Found.ofValue (v.field key) = Found.ofValue (w.field key))
    (h : check (v.field key) = check' (w.field key)) :
    optional (v.entries.present? key) check = optional (w.entries.present? key) check' := by
  rw [present?_eq, present?_eq, isNull_congr hFound]
  cases (w.field key).isNull with
  | true => rfl
  | false => exact congrArg (Except.map some) h

/-- A list whose items are checked at their places. -/
theorem checkEach_congr {check : Place → Value → Checked α} {item : Shape}
    (hCheck : ∀ v w, item.Alike v w → ∀ place, check place v = check place w) {vs ws : List Value}
    (h : List.Forall₂ item.Alike vs ws) (place : Nat → Place) (i : Nat) :
    checkEach (fun i => check (place i)) i vs = checkEach (fun i => check (place i)) i ws := by
  induction h generalizing i with
  | nil => rfl
  | cons hHead _ ih => rw [checkEach_cons, checkEach_cons, hCheck _ _ hHead, ih]

theorem mapM_congr {read : Value → Option α} {R : Value → Value → Prop}
    (hRead : ∀ v w, R v w → read v = read w) {vs ws : List Value} (h : List.Forall₂ R vs ws) :
    vs.mapM read = ws.mapM read := by
  induction h with
  | nil => rfl
  | cons hHead _ ih => rw [List.mapM_cons, List.mapM_cons, hRead _ _ hHead, ih]

theorem strings?_congr {vs ws : List Value} (h : List.Forall₂ Shape.scalar.Alike vs ws) :
    strings? vs = strings? ws :=
  mapM_congr (fun _ _ hItem => asString?_congr hItem.found) h

theorem numbers?_congr {vs ws : List Value} (h : List.Forall₂ Shape.scalar.Alike vs ws) :
    numbers? vs = numbers? ws :=
  mapM_congr (fun _ _ hItem => asNumber?_congr hItem.found) h

/-! ## Decision -/

theorem checkToggleEntry_congr {v w : Value} (h : Shape.toggle.Alike v w) (place : Place) :
    checkToggleEntry place v = checkToggleEntry place w := by
  have hKey : Shape.scalar.Alike (v.field "key") (w.field "key") := h.field "key"
  have hValue : Shape.scalar.Alike (v.field "value") (w.field "value") := h.field "value"
  unfold checkToggleEntry
  refine mapping_bind_congr h.found ?_ place _
  simp only [@get?_bind _ Value.asString? rfl, @get?_bind _ Value.asBool? rfl, ofField_get?]
  rw [asString?_congr hKey.found, asBool?_congr hValue.found, hValue.found]

theorem checkKeyValue_congr {v w : Value}
    (hKey : Shape.scalar.Alike (v.field "key") (w.field "key"))
    (hValue : Shape.scalar.Alike (v.field "value") (w.field "value")) (place : Place)
    (tag : String) : checkKeyValue place tag v.entries = checkKeyValue place tag w.entries := by
  unfold checkKeyValue
  simp only [@get?_bind _ Value.asString? rfl]
  rw [asString?_congr hKey.found, asString?_congr hValue.found]

theorem checkToggle_congr {v w : Value}
    (hLabel : Shape.scalar.Alike (v.field "label") (w.field "label"))
    (hToggles : (Shape.list .toggle).Alike (v.field "toggles") (w.field "toggles"))
    (place : Place) : checkToggle place v.entries = checkToggle place w.entries := by
  unfold checkToggle
  rw [filter_isTruthy_get?, filter_isTruthy_get?, isTruthy_congr hLabel.found, get?_bind rfl,
    get?_bind rfl]
  cases (w.field "label").isTruthy with
  | false => rfl
  | true =>
    change (require (v.field "label").asString? _ _ >>= _) =
      (require (w.field "label").asString? _ _ >>= _)
    rw [asString?_congr hLabel.found]
    refine bind_congr fun label => ?_
    refine list_bind_congr hToggles.found ?_ _ _
    rw [checkEach_congr (fun v w => checkToggleEntry_congr) hToggles.items]

theorem checkDecision_congr {v w : Value} (h : Shape.decision.Alike v w) (place : Place) :
    checkDecision place v = checkDecision place w := by
  have hType : Shape.scalar.Alike (v.field "type") (w.field "type") := h.field "type"
  unfold checkDecision
  refine mapping_bind_congr h.found ?_ place _
  rw [get?_bind rfl, get?_bind rfl, ofField_get?, ofField_get?, ← asString?_congr hType.found,
    hType.found]
  split
  · rename_i hTag
    have hField := h.field
    rw [Value.typeTag?, hTag] at hField
    rw [checkKeyValue_congr (hField "key") (hField "value")]
  · rename_i hTag
    have hField := h.field
    rw [Value.typeTag?, hTag] at hField
    rw [checkKeyValue_congr (hField "key") (hField "value")]
  · rename_i hTag
    have hField := h.field
    rw [Value.typeTag?, hTag] at hField
    exact checkToggle_congr (hField "label") (hField "toggles") place
  · rfl

theorem checkDecisions_congr {v w : Value} (h : (Shape.list .decision).Alike v w) :
    checkDecisions v = checkDecisions w := by
  refine list_bind_congr h.found ?_ _ _
  exact checkEach_congr (fun v w => checkDecision_congr) h.items _ 0

/-! ## Policy -/

theorem checkPolicy_congr {v w : Value} (h : Shape.policy.Alike v w) :
    checkPolicy v = checkPolicy w := by
  have hRule : Shape.rule.Alike (v.field "rule") (w.field "rule") := h.field "rule"
  have hType : Shape.scalar.Alike ((v.field "rule").field "type") ((w.field "rule").field "type") :=
    hRule.field "type"
  have hBody : Shape.scalar.Alike ((v.field "rule").field "value") ((w.field "rule").field "value") :=
    hRule.field "value"
  unfold checkPolicy
  refine mapping_bind_congr h.found ?_ _ _
  rw [get?_bind rfl, get?_bind rfl]
  refine mapping_bind_congr hRule.found ?_ _ _
  simp only [@get?_bind _ Value.asString? rfl]
  rw [asString?_congr hType.found, asString?_congr hBody.found]

/-! ## Parameters -/

namespace Scope

theorem optionalString_congr (s : Scope) {v w : Value} {key : String}
    (h : Shape.scalar.Alike (v.field key) (w.field key)) :
    s.optionalString v.entries key = s.optionalString w.entries key := by
  refine optional_congr h.found ?_
  rw [asString?_congr h.found, h.found]

theorem optionalBool_congr (s : Scope) {v w : Value} {key : String}
    (h : Shape.scalar.Alike (v.field key) (w.field key)) :
    s.optionalBool v.entries key = s.optionalBool w.entries key := by
  refine optional_congr h.found ?_
  rw [asBool?_congr h.found, h.found]

theorem checkItems_congr (s : Scope) {v w : Value} (h : Shape.items.Alike v w) :
    s.checkItems v = s.checkItems w := by
  have hList := isList_congr h.found
  have hText : Shape.scalar.Alike (v.field "query") (w.field "query") := h.field "query"
  have hSource (source : QuerySource) :
      Shape.scalar.Alike (v.field source.key) (w.field source.key) := by
    cases source with
    | datasource => exact h.field "datasource"
    | library => exact h.field "library"
    | package => exact h.field "package"
  have hSources : Scope.sources v = Scope.sources w := by
    unfold Scope.sources
    simp only [isTruthy_congr (hSource _).found]
  have hItems := strings?_congr h.items
  unfold Value.isList at hList
  unfold Value.items at hItems
  unfold Scope.checkItems
  cases hv : v.asSequence? with
  | some vs =>
    obtain ⟨ws, hw⟩ : ∃ ws, w.asSequence? = some ws := by
      rw [← Option.isSome_iff_exists, ← hList, hv]
      rfl
    rw [hv, hw] at hItems
    rw [hw]
    exact congrArg (fun choices => (s.require choices _ _).map Items.list) hItems
  | none =>
    obtain hw : w.asSequence? = none := by
      rw [hv] at hList
      simpa using hList.symm
    rw [hw, h.found]
    refine mapping_bind_congr h.found ?_ _ _
    simp only [@get?_bind _ Value.asString? rfl, sourcesSet_eq]
    rw [asString?_congr hText.found, hSources]
    refine bind_congr fun text => ?_
    cases Scope.sources w with
    | nil => rfl
    | cons source others =>
      cases others with
      | nil =>
        simp only [List.map_cons, List.map_nil]
        rw [asString?_congr (hSource source).found]
      | cons other others => simp only [List.map_cons, List.length_cons, List.length_map]

theorem checkStringsDefault_congr (s : Scope) {v w : Value} (h : (Shape.list .scalar).Alike v w) :
    s.checkStringsDefault v = s.checkStringsDefault w := by
  refine list_bind_congr h.found ?_ _ _
  rw [strings?_congr h.items]

theorem checkNumbersDefault_congr (s : Scope) {v w : Value} (h : (Shape.list .scalar).Alike v w) :
    s.checkNumbersDefault v = s.checkNumbersDefault w := by
  refine list_bind_congr h.found ?_ _ _
  rw [numbers?_congr h.items]

theorem checkNumberDefault_congr (s : Scope) {v w : Value} (h : Shape.scalar.Alike v w) :
    s.checkNumberDefault v = s.checkNumberDefault w := by
  unfold Scope.checkNumberDefault
  rw [asNumber?_congr h.found, h.found]

theorem checkDefaultValue_congr (s : Scope) {v w : Value} (h : (Shape.list .scalar).Alike v w)
    (type : ValueType) (key : String) :
    s.checkDefaultValue type key v = s.checkDefaultValue type key w := by
  cases type with
  | string =>
    unfold Scope.checkDefaultValue
    rw [asString?_congr h.found]
  | setOfStrings =>
    refine list_bind_congr h.found ?_ _ _
    rw [strings?_congr h.items]
  | setOfNumbers =>
    refine list_bind_congr h.found ?_ _ _
    rw [numbers?_congr h.items]

theorem checkDefaultEntries_congr (s : Scope) {es fs : Entries}
    (h : List.Forall₂ (fun e f => e.1 = f.1 ∧ (Shape.list .scalar).Alike e.2 f.2) es fs)
    (type : ValueType) (found : ObjectDefault) :
    s.checkDefaultEntries type found es = s.checkDefaultEntries type found fs := by
  induction h generalizing found with
  | nil => rfl
  | @cons e f es fs hHead _ ih =>
    obtain ⟨key, v⟩ := e
    obtain ⟨key', w⟩ := f
    obtain ⟨rfl, hValue⟩ : key = key' ∧ (Shape.list .scalar).Alike v w := hHead
    unfold Scope.checkDefaultEntries
    simp only [s.checkDefaultValue_congr hValue, ih]

theorem checkKeyDescriptor_congr (s : Scope) {v w : Value} (h : Shape.keyDescriptor.Alike v w) :
    s.checkKeyDescriptor v = s.checkKeyDescriptor w := by
  have hPlaceholder : Shape.scalar.Alike (v.field "placeholder") (w.field "placeholder") :=
    h.field "placeholder"
  refine mapping_bind_congr h.found ?_ _ _
  rw [get?_bind rfl, get?_bind rfl, asString?_congr hPlaceholder.found]

theorem checkTypedDefault_congr (s : Scope) {v w : Value}
    (h : (Shape.entries (.list .scalar)).Alike v w) (type : ValueType) :
    s.checkTypedDefault type (some v.entries) = s.checkTypedDefault type (some w.entries) :=
  congrArg (Except.map some) (s.checkDefaultEntries_congr h.2 type [])

/-- What follows the first look at the default, if it is only typed once more. -/
theorem default_bind_congr (s : Scope) {v w : Value} {f g : Option Entries → Checked α}
    (h : (Shape.entries (.list .scalar)).Alike (v.field "default") (w.field "default"))
    (hRest : ∀ d d', (∀ type, s.checkTypedDefault type d = s.checkTypedDefault type d') → f d = g d') :
    (optional (v.entries.present? "default") s.checkMappingDefault >>= f) =
      optional (w.entries.present? "default") s.checkMappingDefault >>= g := by
  have hMapping := isMapping_congr h.1
  have hSome := hRest _ _ (s.checkTypedDefault_congr h)
  rw [present?_eq, present?_eq, isNull_congr h.1]
  cases (w.field "default").isNull with
  | true => exact hRest none none fun _ => rfl
  | false =>
    unfold Value.isMapping at hMapping
    unfold Value.entries at hSome
    change ((s.require (v.field "default").asMapping? _ _).map some >>= f) =
      ((s.require (w.field "default").asMapping? _ _).map some >>= g)
    cases hv : (v.field "default").asMapping? <;> cases hw : (w.field "default").asMapping? <;>
      simp [hv, hw] at hSome hMapping
    · rfl
    · exact hSome

theorem checkObject_congr (s : Scope) {v w : Value}
    (hDefault : (Shape.entries (.list .scalar)).Alike (v.field "default") (w.field "default"))
    (hKey : Shape.keyDescriptor.Alike (v.field "key") (w.field "key"))
    (hValue : Shape.valueDescriptor.Alike (v.field "value") (w.field "value")) :
    s.checkObject v.entries = s.checkObject w.entries := by
  have hPlaceholder : Shape.scalar.Alike ((v.field "value").field "placeholder")
      ((w.field "value").field "placeholder") := hValue.field "placeholder"
  have hType : Shape.scalar.Alike ((v.field "value").field "type") ((w.field "value").field "type") :=
    hValue.field "type"
  unfold Scope.checkObject
  refine s.default_bind_congr hDefault ?_
  intro default default' hTyped
  rw [optional_congr hKey.found (s.checkKeyDescriptor_congr hKey)]
  refine bind_congr fun keyPlaceholder => ?_
  rw [get?_bind rfl, get?_bind rfl]
  refine mapping_bind_congr hValue.found ?_ _ _
  have hCheck : s.checkValuePlaceholder ((v.field "value").field "placeholder") =
      s.checkValuePlaceholder ((w.field "value").field "placeholder") := by
    unfold Scope.checkValuePlaceholder
    rw [asString?_congr hPlaceholder.found]
  rw [optional_congr hPlaceholder.found hCheck, get?_bind rfl, get?_bind rfl, ofField_get?,
    ofField_get?, asString?_congr hType.found, hType.found]
  simp only [hTyped]

/-- What a parameter of a known type carries. -/
theorem checkKind_congr (s : Scope) {v w : Value}
    (h : ∀ key, (Shape.parameterField s.type key).Alike (v.field key) (w.field key)) :
    s.checkKind v.entries = s.checkKind w.entries := by
  unfold Scope.checkKind
  cases hType : s.type with
  | string =>
    rw [hType] at h
    have hItems : Shape.items.Alike (v.field "items") (w.field "items") := h "items"
    unfold Scope.checkString
    rw [s.optionalString_congr (h "default"), optional_congr hItems.found (s.checkItems_congr hItems)]
  | setOfStrings =>
    rw [hType] at h
    have hDefault : (Shape.list .scalar).Alike (v.field "default") (w.field "default") := h "default"
    have hItems : Shape.items.Alike (v.field "items") (w.field "items") := h "items"
    unfold Scope.checkSetOfStrings
    rw [optional_congr hDefault.found (s.checkStringsDefault_congr hDefault),
      optional_congr hItems.found (s.checkItems_congr hItems)]
  | number =>
    rw [hType] at h
    have hDefault : Shape.scalar.Alike (v.field "default") (w.field "default") := h "default"
    unfold Scope.checkNumber
    rw [optional_congr hDefault.found (s.checkNumberDefault_congr hDefault)]
  | setOfNumbers =>
    rw [hType] at h
    have hDefault : (Shape.list .scalar).Alike (v.field "default") (w.field "default") := h "default"
    unfold Scope.checkSetOfNumbers
    rw [optional_congr hDefault.found (s.checkNumbersDefault_congr hDefault)]
  | object =>
    rw [hType] at h
    exact s.checkObject_congr (h "default") (h "key") (h "value")

end Scope

theorem checkParameter_congr {v w : Value} (h : Shape.parameter.Alike v w) (place : Place) :
    checkParameter place v = checkParameter place w := by
  have hField := h.field
  rw [Value.typeTag?] at hField
  unfold checkParameter
  refine mapping_bind_congr h.found ?_ place _
  rw [get?_bind rfl, get?_bind rfl, get?_bind rfl, get?_bind rfl, ofField_get?, ofField_get?]
  cases hTag : (v.field "type").asString?.bind ParameterType.ofTag? with
  | none =>
    rw [hTag] at hField
    have hType : Shape.scalar.Alike (v.field "type") (w.field "type") := hField "type"
    rw [← asString?_congr hType.found, hType.found, hTag]
    rfl
  | some type =>
    rw [hTag] at hField
    have hType : Shape.scalar.Alike (v.field "type") (w.field "type") := hField "type"
    have hName : Shape.scalar.Alike (v.field "name") (w.field "name") := hField "name"
    rw [← asString?_congr hType.found, hTag, asString?_congr hName.found, require_some_bind,
      require_some_bind]
    refine bind_congr fun name => ?_
    dsimp only
    rw [Scope.optionalString_congr _ (hField "label"), Scope.optionalBool_congr _ (hField "required"),
      Scope.optionalString_congr _ (hField "placeholder"), Scope.checkKind_congr _ hField]

theorem checkParameters_congr {v w : Value} (h : (Shape.list .parameter).Alike v w) :
    checkParameters v = checkParameters w := by
  refine list_bind_congr h.found ?_ _ _
  exact checkEach_congr (fun v w => checkParameter_congr) h.items _ 0

/-! ## Documents -/

/-- Documents that are alike in all that is read have the same metadata or the same violation. -/
theorem ofDocument_congr {v w : Value} (h : Shape.document.Alike v w) :
    Metadata.ofDocument v = Metadata.ofDocument w := by
  have hTitle : Shape.scalar.Alike (v.field "title") (w.field "title") := h.field "title"
  have hDescription : Shape.scalar.Alike (v.field "description") (w.field "description") :=
    h.field "description"
  have hSchema : Shape.schema.Alike (v.field "schema") (w.field "schema") := h.field "schema"
  have hPolicy : Shape.policy.Alike (v.field "policy") (w.field "policy") := h.field "policy"
  have hDecision : (Shape.list .decision).Alike ((v.field "schema").field "decision")
      ((w.field "schema").field "decision") := hSchema.field "decision"
  have hParameters : (Shape.list .parameter).Alike ((v.field "schema").field "parameters")
      ((w.field "schema").field "parameters") := hSchema.field "parameters"
  unfold Metadata.ofDocument
  simp only [schema_entries_eq, @get?_bind _ Value.asString? rfl]
  rw [asString?_congr hTitle.found, asString?_congr hDescription.found,
    optional_congr hDecision.found (checkDecisions_congr hDecision),
    optional_congr hPolicy.found (checkPolicy_congr hPolicy),
    optional_congr hParameters.found (checkParameters_congr hParameters)]

end Schema

end SnippetAudit
