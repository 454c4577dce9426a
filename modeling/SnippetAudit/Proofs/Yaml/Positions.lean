import SnippetAudit.Proofs.Schema.Edits

/-!
# Positions in a document

A position in a value is reached by moves from the root: to a field of a mapping, to an item of a
sequence, or to the value of an entry of a mapping. Tags on the way are looked through, and they stay
when another value is put at the position. A field that is missing is a position too; what is put
there becomes the last entry.

Results:
* `field_setChild_self`, `field_setChild_of_ne`: one field of a mapping is set, the others stay.
* `items_setChild`, `entries_setChild_entry`: what is before and behind in a list stays.
* `Proper.put`: no mapping gets a key twice.
-/

namespace SnippetAudit.Yaml

open Schema (DistinctKeys standsUnder standsUnder_iff)

/-! ## Specification -/

namespace Value

/-- One move down in a value. -/
inductive Move where
  /-- To the field under a key. -/
  | field (key : String)
  /-- To an item of a sequence. -/
  | item (index : Nat)
  /-- To the value of an entry of a mapping, whatever its key is. -/
  | entry (index : Nat)
  deriving DecidableEq, Repr

/-- The value that a move leads to, if there is one. -/
def child? (v : Value) : Move → Option Value
  | .field key => v.entries.get? key
  | .item i => v.items[i]?
  | .entry i => v.entries[i]?.map Prod.snd

/-- Puts a value where a move leads. A field that is missing is added. -/
def setChild (v : Value) (m : Move) (w : Value) : Value :=
  match v with
  | .tagged tag v => .tagged tag (v.setChild m w)
  | .mapping es =>
    match m with
    | .field key => .mapping (Entries.insert (.string key) w es)
    | .entry i => .mapping (es.modify i fun e => (e.1, w))
    | .item _ => .mapping es
  | .sequence vs =>
    match m with
    | .item i => .sequence (vs.set i w)
    | .field _ | .entry _ => .sequence vs
  | v => v

/-- Puts a value where several moves lead. -/
def put (v : Value) (moves : List Move) (w : Value) : Value :=
  match moves with
  | [] => w
  | m :: moves => v.setChild m (((v.child? m).getD .null).put moves w)

/-- No mapping in the value has a key twice, as in every value that is read from a text. -/
inductive Proper : Value → Prop
  | null : Proper .null
  | bool (b : Bool) : Proper (.bool b)
  | number (n : Number) : Proper (.number n)
  | string (s : String) : Proper (.string s)
  | sequence {vs : List Value} (hItems : ∀ v ∈ vs, Proper v) : Proper (.sequence vs)
  | mapping {es : Entries} (hDistinct : DistinctKeys es) (hKeys : ∀ e ∈ es, Proper e.1)
    (hValues : ∀ e ∈ es, Proper e.2) : Proper (.mapping es)
  | tagged {tag : String} {v : Value} (h : Proper v) : Proper (.tagged tag v)

end Value

/-! ## Adding an entry -/

/-- An entry is added at the end under a new key, or the entry under its key gets another value. -/
theorem Entries.insert_cases (key w : Value) (es : Entries) :
    (Entries.insert key w es = es ++ [(key, w)] ∧ ∀ e ∈ es, e.1.same key = false) ∨
      ∃ front k v back, es = front ++ (k, v) :: back ∧ k.same key = true ∧
        (∀ e ∈ front, e.1.same key = false) ∧
        Entries.insert key w es = front ++ (k, w) :: back := by
  induction es with
  | nil => exact .inl ⟨rfl, by simp⟩
  | cons e es ih =>
    obtain ⟨k, v⟩ := e
    rw [Entries.insert]
    cases hSame : k.same key with
    | true => exact .inr ⟨[], k, v, es, rfl, hSame, by simp, rfl⟩
    | false =>
      rw [if_neg (by simp)]
      rcases ih with ⟨hInsert, hNew⟩ | ⟨front, k', v', back, rfl, hSame', hFront, hInsert⟩
      · exact .inl ⟨by rw [hInsert]; rfl, List.forall_mem_cons.mpr ⟨hSame, hNew⟩⟩
      · exact .inr ⟨(k, v) :: front, k', v', back, rfl, hSame',
          List.forall_mem_cons.mpr ⟨hSame, hFront⟩, by rw [hInsert]; rfl⟩

theorem Entries.insert_of_new {key : Value} {es : Entries} (h : ∀ e ∈ es, e.1.same key = false)
    (w : Value) : Entries.insert key w es = es ++ [(key, w)] := by
  rcases Entries.insert_cases key w es with ⟨hInsert, -⟩ | ⟨front, k, v, back, rfl, hSame, -⟩
  · exact hInsert
  · rw [h (k, v) (by simp)] at hSame
    cases hSame

theorem Entries.get?_insert_string_self (key : String) (w : Value) (es : Entries) :
    (Entries.insert (.string key) w es).get? key = some w := by
  have hNe {front : Entries} (h : ∀ e ∈ front, e.1.same (.string key) = false) :
      ∀ e ∈ front, e.1 ≠ .string key := by
    intro e he hKey
    have hUnder : standsUnder key e = true := standsUnder_iff.mpr hKey
    rw [standsUnder, h e he] at hUnder
    cases hUnder
  rcases Entries.insert_cases (.string key) w es with
    ⟨hInsert, hNew⟩ | ⟨front, k, v, back, -, hSame, hFront, hInsert⟩
  · rw [hInsert]
    exact Schema.get?_insert_self (hNe hNew) w []
  · obtain rfl : k = .string key := @standsUnder_iff key (k, v) |>.mp hSame
    rw [hInsert]
    exact Schema.get?_insert_self (hNe hFront) w back

theorem Entries.get?_insert_string_of_ne {key key' : String} (h : key' ≠ key) (w : Value)
    (es : Entries) : (Entries.insert (.string key) w es).get? key' = es.get? key' := by
  have hKey : Value.string key ≠ .string key' := fun hKey => h (Value.string.inj hKey).symm
  rcases Entries.insert_cases (.string key) w es with
    ⟨hInsert, -⟩ | ⟨front, k, v, back, rfl, hSame, -, hInsert⟩
  · rw [hInsert, Schema.get?_insert_of_ne hKey, List.append_nil]
  · obtain rfl : k = .string key := @standsUnder_iff key (k, v) |>.mp hSame
    rw [hInsert, Schema.get?_insert_of_ne hKey, Schema.get?_insert_of_ne hKey]

namespace Value

/-! ## One move -/

theorem setChild_tagged (m : Move) (w : Value) (tag : String) (v : Value) :
    (tagged tag v).setChild m w = tagged tag (v.setChild m w) := by
  rw [setChild]

theorem untag_setChild (m : Move) (w : Value) :
    ∀ v : Value, (v.setChild m w).untag = v.untag.setChild m w
  | .tagged tag v => by rw [setChild_tagged, untag_tagged, untag_tagged, untag_setChild m w v]
  | .mapping es => by cases m <;> rfl
  | .sequence vs => by cases m <;> rfl
  | .null | .bool _ | .number _ | .string _ => rfl

/-- A value stays of its kind when something below it is set. -/
@[simp] theorem ofValue_setChild (m : Move) (w v : Value) :
    Found.ofValue (v.setChild m w) = Found.ofValue v := by
  unfold Found.ofValue
  rw [untag_setChild]
  cases hv : v.untag with
  | tagged tag u => exact absurd hv (Schema.untag_ne_tagged v tag u)
  | mapping es => cases m <;> rfl
  | sequence vs => cases m <;> rfl
  | null | bool | number | string => rfl

theorem entries_setChild_field {v : Value} (h : v.isMapping = true) (key : String) (w : Value) :
    (v.setChild (.field key) w).entries = Entries.insert (.string key) w v.entries := by
  obtain ⟨es, hes⟩ := Option.isSome_iff_exists.mp h
  have hMapping : v.untag = .mapping es := Schema.asMapping?_eq_some_iff.mp hes
  simp [entries, asMapping?, untag_setChild, hMapping, setChild]

theorem entries_setChild_entry (v : Value) (i : Nat) (w : Value) :
    (v.setChild (.entry i) w).entries = v.entries.modify i fun e => (e.1, w) := by
  unfold entries asMapping?
  rw [untag_setChild]
  cases hv : v.untag with
  | tagged tag u => exact absurd hv (Schema.untag_ne_tagged v tag u)
  | mapping es => rfl
  | null | bool | number | string | sequence => simp [setChild]

theorem items_setChild (v : Value) (i : Nat) (w : Value) :
    (v.setChild (.item i) w).items = v.items.set i w := by
  unfold items asSequence?
  rw [untag_setChild]
  cases hv : v.untag with
  | tagged tag u => exact absurd hv (Schema.untag_ne_tagged v tag u)
  | sequence vs => rfl
  | null | bool | number | string | mapping => simp [setChild]

/-- The field that is set. -/
theorem field_setChild_self {v : Value} (h : v.isMapping = true) (key : String) (w : Value) :
    (v.setChild (.field key) w).field key = w := by
  rw [field, entries_setChild_field h, Entries.get?_insert_string_self, Option.getD_some]

/-- The other fields. -/
theorem field_setChild_of_ne {v : Value} (h : v.isMapping = true) {key key' : String}
    (hKey : key' ≠ key) (w : Value) : (v.setChild (.field key) w).field key' = v.field key' := by
  rw [field, entries_setChild_field h, Entries.get?_insert_string_of_ne hKey, ← field]

/-! ## No key twice -/

theorem Proper.untag {v : Value} (h : v.Proper) : v.untag.Proper := by
  induction h with
  | tagged _ ih => rwa [untag_tagged]
  | null => exact .null
  | bool b => exact .bool b
  | number n => exact .number n
  | string s => exact .string s
  | sequence hItems => exact .sequence hItems
  | mapping hDistinct hKeys hValues => exact .mapping hDistinct hKeys hValues

/-- What stands in a value whose mappings have no key twice. -/
theorem Proper.of_mem_items {v u : Value} (h : v.Proper) (hu : u ∈ v.items) : u.Proper := by
  have hUntag := h.untag
  unfold items asSequence? at hu
  cases hv : v.untag with
  | sequence vs =>
    rw [hv] at hu hUntag
    cases hUntag with
    | sequence hItems => exact hItems u hu
  | null | bool | number | string | mapping | tagged => simp [hv] at hu

theorem Proper.entries {v : Value} (h : v.Proper) :
    DistinctKeys v.entries ∧ (∀ e ∈ v.entries, e.1.Proper) ∧ ∀ e ∈ v.entries, e.2.Proper := by
  have hUntag := h.untag
  unfold Value.entries asMapping?
  cases hv : v.untag with
  | mapping es =>
    rw [hv] at hUntag
    cases hUntag with
    | mapping hDistinct hKeys hValues => exact ⟨hDistinct, hKeys, hValues⟩
  | null | bool | number | string | sequence | tagged => simp [DistinctKeys]

theorem Proper.child {v u : Value} (h : v.Proper) {m : Move} (hChild : v.child? m = some u) :
    u.Proper := by
  cases m with
  | field key =>
    change v.entries.get? key = some u at hChild
    rw [Schema.get?_eq_find?, Option.map_eq_some_iff] at hChild
    obtain ⟨e, hFind, rfl⟩ := hChild
    exact h.entries.2.2 e (List.mem_of_find?_eq_some hFind)
  | item i => exact h.of_mem_items (List.mem_of_getElem? hChild)
  | entry i =>
    obtain ⟨e, hEntry, rfl⟩ := Option.map_eq_some_iff.mp hChild
    exact h.entries.2.2 e (List.mem_of_getElem? hEntry)

/-- The entries of a value, and the first of them, as a mapping. -/
theorem Proper.front {v : Value} (h : v.Proper) {front back : Entries}
    (hEntries : v.entries = front ++ back) : (Value.mapping front).Proper := by
  obtain ⟨hDistinct, hKeys, hValues⟩ := h.entries
  rw [hEntries] at hDistinct hKeys hValues
  exact .mapping (List.pairwise_append.mp hDistinct).1 (List.forall_mem_append.mp hKeys).1
    (List.forall_mem_append.mp hValues).1

/-- An entry gets another value. -/
theorem Proper.replace {front back : Entries} {k v w : Value}
    (h : (Value.mapping (front ++ (k, v) :: back)).Proper) (hw : w.Proper) :
    (Value.mapping (front ++ (k, w) :: back)).Proper := by
  obtain ⟨hDistinct, hKeys, hValues⟩ := h.entries
  change DistinctKeys (front ++ (k, v) :: back) at hDistinct
  change ∀ e ∈ front ++ (k, v) :: back, _ at hKeys
  change ∀ e ∈ front ++ (k, v) :: back, _ at hValues
  refine .mapping ?_ ?_ ?_
  · simpa only [DistinctKeys, List.pairwise_append, List.pairwise_cons, List.forall_mem_cons]
      using hDistinct
  · simpa only [List.forall_mem_append, List.forall_mem_cons] using hKeys
  · rw [List.forall_mem_append, List.forall_mem_cons] at hValues ⊢
    exact ⟨hValues.1, hw, hValues.2.2⟩

theorem Proper.insert {es : Entries} {key w : Value} (h : (Value.mapping es).Proper)
    (hKey : key.Proper) (hw : w.Proper) : (Value.mapping (Entries.insert key w es)).Proper := by
  rcases Entries.insert_cases key w es with
    ⟨hInsert, hNew⟩ | ⟨front, k, v, back, rfl, -, -, hInsert⟩
  · obtain ⟨hDistinct, hKeys, hValues⟩ := h.entries
    rw [hInsert]
    refine .mapping ?_ ?_ ?_
    · exact List.pairwise_append.mpr ⟨hDistinct, List.pairwise_singleton _ _, by simpa using hNew⟩
    · exact List.forall_mem_append.mpr ⟨hKeys, by simpa using hKey⟩
    · exact List.forall_mem_append.mpr ⟨hValues, by simpa using hw⟩
  · rw [hInsert]
    exact h.replace hw

theorem Proper.modify {es : Entries} {w : Value} (h : (Value.mapping es).Proper) (i : Nat)
    (hw : w.Proper) : (Value.mapping (es.modify i fun e => (e.1, w))).Proper := by
  by_cases hi : i < es.length
  · obtain ⟨front, e, back, rfl, -, hModify⟩ := List.exists_of_modify (fun e => (e.1, w)) hi
    rw [hModify]
    exact h.replace hw
  · rwa [List.modify_eq_self (by omega)]

theorem Proper.setChild {m : Move} {v w : Value} (h : v.Proper) (hw : w.Proper) :
    (v.setChild m w).Proper := by
  induction h with
  | tagged _ ih =>
    rw [setChild_tagged]
    exact .tagged ih
  | @mapping es hDistinct hKeys hValues _ _ =>
    have hMapping : (Value.mapping es).Proper := .mapping hDistinct hKeys hValues
    cases m with
    | field key => exact hMapping.insert (.string key) hw
    | entry i => exact hMapping.modify i hw
    | item i => exact hMapping
  | @sequence vs hItems _ =>
    cases m with
    | item i =>
      refine .sequence ?_
      intro v hv
      rcases List.mem_or_eq_of_mem_set hv with hOld | rfl
      · exact hItems v hOld
      · exact hw
    | field key | entry i => exact .sequence hItems
  | null => exact .null
  | bool b => exact .bool b
  | number n => exact .number n
  | string s => exact .string s

/-- No mapping gets a key twice by what is put at a position. -/
theorem Proper.put {w : Value} (hw : w.Proper) {moves : List Move} :
    ∀ {v : Value}, v.Proper → (v.put moves w).Proper := by
  induction moves with
  | nil => exact fun _ => hw
  | cons m moves ih =>
    intro v hv
    rw [Value.put]
    refine hv.setChild (ih ?_)
    cases hChild : v.child? m with
    | none => exact .null
    | some u => exact hv.child hChild

end Value

end SnippetAudit.Yaml
