import SnippetAudit.Proofs.Lists
import SnippetAudit.Snippet.Schema

/-!
# What values and fields are read as

The specification's vocabulary for parts of a document, apart from the order in which
they are checked: a value *is* a string, a boolean, a number, a list or a mapping when it
is one behind its tags; a required field is such a value under its key; an optional field
that is absent or null reads as `none`.

Results:
* `optional_present?_eq_ok_iff`, `checkEach_eq_ok_iff`: a check that accepts what a relation
  describes lifts to optional fields and to lists.
* `strings?_eq_some_iff`, `numbers?_eq_some_iff`: lists of one kind of item.
-/

namespace SnippetAudit.Schema

open Yaml (Value Entries)

variable {α β : Type}

/-! ## Specification -/

/-- The value is the string `s`, tags aside. -/
def StringIs (v : Value) (s : String) : Prop := v.untag = .string s

/-- The value is the boolean `b`, tags aside. -/
def BoolIs (v : Value) (b : Bool) : Prop := v.untag = .bool b

/-- The value is a number that is `x` in floating point, tags aside. -/
def NumberIs (v : Value) (x : Binary64) : Prop := ∃ n, v.untag = .number n ∧ n.toBinary64 = x

/-- The value is a mapping with these entries, tags aside. -/
def MappingIs (v : Value) (entries : Entries) : Prop := v.untag = .mapping entries

/-- The value is a sequence, tags aside, and its items read one by one as `as`. -/
def ListIs (R : Value → α → Prop) (v : Value) (as : List α) : Prop :=
  ∃ items, v.untag = .sequence items ∧ List.Forall₂ R items as

/-- The field `key` is there and reads as `a`. -/
def FieldIs (R : Value → α → Prop) (entries : Entries) (key : String) (a : α) : Prop :=
  ∃ v, entries.get? key = some v ∧ R v a

/-- The optional field `key`: an absent or null field reads as `none`, any other field
    has to read as a value. -/
inductive OptionalIs (R : Value → α → Prop) (entries : Entries) (key : String) : Option α → Prop
  | absent (h : entries.get? key = none) : OptionalIs R entries key none
  | null {v : Value} (h : entries.get? key = some v) (hv : v.untag = .null) :
    OptionalIs R entries key none
  | given {v : Value} {a : α} (h : entries.get? key = some v) (hv : v.untag ≠ .null) (ha : R v a) :
    OptionalIs R entries key (some a)

/-! ## Requirements -/

theorem require_eq_ok_iff {value : Option α} {place : Place} {fault : Fault} {a : α} :
    require value place fault = .ok a ↔ value = some a := by
  cases value <;> simp [require]

theorem Scope.require_eq_ok_iff {s : Scope} {value : Option α} {steps : Place}
    {fault : ParameterFault} {a : α} : s.require value steps fault = .ok a ↔ value = some a :=
  Schema.require_eq_ok_iff

/-! ## Readers -/

theorem asString?_eq_some_iff {v : Value} {s : String} : v.asString? = some s ↔ StringIs v s := by
  unfold Value.asString? StringIs
  cases v.untag <;> simp

theorem asBool?_eq_some_iff {v : Value} {b : Bool} : v.asBool? = some b ↔ BoolIs v b := by
  unfold Value.asBool? BoolIs
  cases v.untag <;> simp

theorem asNumber?_eq_some_iff {v : Value} {x : Binary64} :
    v.asNumber? = some x ↔ NumberIs v x := by
  unfold Value.asNumber? NumberIs
  cases v.untag <;> simp

theorem asSequence?_eq_some_iff {v : Value} {items : List Value} :
    v.asSequence? = some items ↔ v.untag = .sequence items := by
  unfold Value.asSequence?
  cases v.untag <;> simp

theorem asMapping?_eq_some_iff {v : Value} {entries : Entries} :
    v.asMapping? = some entries ↔ MappingIs v entries := by
  unfold Value.asMapping? MappingIs
  cases v.untag <;> simp

theorem isNull_iff {v : Value} : v.isNull = true ↔ v.untag = .null := by
  unfold Value.isNull
  cases v.untag <;> simp

/-! ## Fields -/

/-- A required field, read by a reader that gives what `R` describes. -/
theorem get?_bind_eq_some_iff {read : Value → Option α} {R : Value → α → Prop}
    (hRead : ∀ {v a}, read v = some a ↔ R v a) {entries : Entries} {key : String} {a : α} :
    (entries.get? key).bind read = some a ↔ FieldIs R entries key a := by
  unfold FieldIs
  rw [Option.bind_eq_some_iff]
  simp only [hRead]

/-- A field that holds the tag of `t`. -/
theorem get?_bind_ofTag?_eq_some_iff {ofTag? : String → Option α} {tag : α → String}
    (hTag : ∀ {text t}, ofTag? text = some t ↔ text = tag t) {entries : Entries} {key : String} {t : α} :
    ((entries.get? key).bind Value.asString?).bind ofTag? = some t ↔
      FieldIs StringIs entries key (tag t) := by
  rw [Option.bind_eq_some_iff]
  simp only [get?_bind_eq_some_iff asString?_eq_some_iff, hTag, exists_eq_right]

theorem present?_eq_some_iff {entries : Entries} {key : String} {v : Value} :
    entries.present? key = some v ↔ entries.get? key = some v ∧ v.untag ≠ .null := by
  unfold Entries.present?
  rw [Option.filter_eq_some_iff, Bool.not_eq_true', ← Bool.not_eq_true, isNull_iff]

theorem present?_eq_none_iff {entries : Entries} {key : String} :
    entries.present? key = none ↔
      entries.get? key = none ∨ ∃ v, entries.get? key = some v ∧ v.untag = .null := by
  unfold Entries.present?
  cases entries.get? key with
  | none => simp
  | some v => simp [Option.filter_some, isNull_iff]

/-- An optional field, checked by a check that accepts what `R` describes. -/
theorem optional_present?_eq_ok_iff {check : Value → Checked α} {R : Value → α → Prop}
    (hCheck : ∀ {v a}, check v = .ok a ↔ R v a) {entries : Entries} {key : String} {o : Option α} :
    optional (entries.present? key) check = .ok o ↔ OptionalIs R entries key o := by
  cases h : entries.present? key with
  | none =>
    have hNone := present?_eq_none_iff.mp h
    simp only [optional, Except.ok.injEq]
    constructor
    · rintro rfl
      rcases hNone with hAbsent | ⟨v, hv, hNull⟩
      · exact .absent hAbsent
      · exact .null hv hNull
    · rintro (_ | _ | ⟨hv, hNull, _⟩)
      · rfl
      · rfl
      · rw [present?_eq_some_iff.mpr ⟨hv, hNull⟩] at h
        cases h
  | some v =>
    obtain ⟨hv, hNull⟩ := present?_eq_some_iff.mp h
    simp only [optional, map_eq_ok_iff, hCheck]
    constructor
    · rintro ⟨a, ha, rfl⟩
      exact .given hv hNull ha
    · rintro (hAbsent | ⟨hw, hNull'⟩ | ⟨hw, _, ha⟩)
      · rw [hAbsent] at hv
        cases hv
      · rw [hw] at hv
        cases hv
        exact absurd hNull' hNull
      · rw [hw] at hv
        cases hv
        exact ⟨_, ha, rfl⟩

/-! ## Lists -/

/-- A list, whose items are checked by a check that accepts what `R` describes, whatever
    the index. -/
theorem checkEach_eq_ok_iff {check : Nat → Value → Checked α} {R : Value → α → Prop}
    (hCheck : ∀ i v a, check i v = .ok a ↔ R v a) {i : Nat} {items : List Value} {as : List α} :
    checkEach check i items = .ok as ↔ List.Forall₂ R items as := by
  induction items generalizing i as with
  | nil =>
    rw [checkEach_nil, Except.ok.injEq, List.forall₂_nil_left_iff]
    exact eq_comm
  | cons v items ih =>
    rw [List.forall₂_cons_left_iff]
    simp only [checkEach, bind_eq_ok_iff, pure_eq_ok_iff, hCheck, ih]
    constructor
    · rintro ⟨a, ha, as, has, rfl⟩
      exact ⟨a, as, ha, has, rfl⟩
    · rintro ⟨a, as, ha, has, rfl⟩
      exact ⟨a, ha, as, has, rfl⟩

/-- A sequence, whose items are checked at their places by a check that accepts what `R` describes. -/
theorem checkSequence_eq_ok_iff {check : Place → Value → Checked α} {R : Value → α → Prop}
    (hCheck : ∀ place v a, check place v = .ok a ↔ R v a) {v : Value} {place : Place} {fault : Fault}
    {as : List α} :
    (require v.asSequence? place fault >>= checkEach (fun i => check (place ++ [.item i])) 0) = .ok as ↔
      ListIs R v as := by
  have hEach {items : List Value} :
      checkEach (fun i => check (place ++ [.item i])) 0 items = .ok as ↔ List.Forall₂ R items as := by
    apply checkEach_eq_ok_iff
    intro i v a
    exact hCheck _ v a
  unfold ListIs
  simp only [bind_eq_ok_iff, require_eq_ok_iff, asSequence?_eq_some_iff, hEach]

theorem strings?_eq_some_iff {items : List Value} {ss : List String} :
    strings? items = some ss ↔ List.Forall₂ StringIs items ss :=
  mapM_eq_some_iff asString?_eq_some_iff

theorem numbers?_eq_some_iff {items : List Value} {xs : List Binary64} :
    numbers? items = some xs ↔ List.Forall₂ NumberIs items xs :=
  mapM_eq_some_iff asNumber?_eq_some_iff

end SnippetAudit.Schema
