import SnippetAudit.Proofs.Lists
import SnippetAudit.Proofs.Schema.PathText
import SnippetAudit.Proofs.Yaml.Positions

/-!
# Repairs

A value is repaired where it breaks its first rule: another value is put at the place of that rule,
such that the rules before it are the same as they were, the rule is kept, and whatever is broken now
stands behind it.

Whether a list of rules can be repaired in this way follows from its parts. A repair in one part must
leave the parts before it as they are, so each part is told what has to be kept.

Results:
* `Repairable.here`: a rule that looks at the value itself.
* `Repairable.append`, `Repairable.cons`, `Repairable.optional`: rules one after another.
* `Repairable.field`, `Repairable.leaf`: rules for a field, and one rule that looks at a field.
* `Repairable.list`: rules for the items of a list.
-/

namespace SnippetAudit

open Yaml (Value Entries)
open Yaml.Value (Move)

/-! ## Specification -/

/-- The steps of a place lead from the value to a position, reached by the moves. Whatever stands
    above the position is there; only a field at the end may be missing. -/
inductive Yaml.Value.Locates : Value → Place → List Move → Prop
  | here (v : Value) : Locates v [] []
  | missing {v : Value} {key : String} (hMapping : v.isMapping = true)
    (h : v.child? (.field key) = none) : Locates v [.field key] [.field key]
  | field {v child : Value} {key : String} {steps : Place} {moves : List Move}
    (hChild : v.child? (.field key) = some child) (h : Locates child steps moves) :
    Locates v (.field key :: steps) (.field key :: moves)
  | item {v child : Value} {i : ℕ} {steps : Place} {moves : List Move}
    (hChild : v.child? (.item i) = some child) (h : Locates child steps moves) :
    Locates v (.item i :: steps) (.item i :: moves)
  /-- An entry is named by the text of its key, which need not be a string. -/
  | entry {v key child : Value} {i : ℕ} {text : String} {steps : Place} {moves : List Move}
    (hEntry : v.entries[i]? = some (key, child)) (hText : key.keyText? = some text)
    (h : Locates child steps moves) : Locates v (.entry text :: steps) (.entry i :: moves)

/-- A fault in a parameter, whatever was found. -/
def ParameterFault.expectation : ParameterFault → ParameterFault
  | .notString field _ => .notString field .nothing
  | .notBool field _ => .notBool field .nothing
  | .defaultNotNumber _ => .defaultNotNumber .nothing
  | .itemsShape _ => .itemsShape .nothing
  | .sourceCount _ => .sourceCount 0
  | .unknownValueType _ => .unknownValueType .nothing
  | fault => fault

/-- A fault, whatever was found. -/
def Fault.expectation : Fault → Fault
  | .unknownDecisionType _ => .unknownDecisionType .nothing
  | .toggleValueNotBool _ => .toggleValueNotBool .nothing
  | .unknownRuleType _ => .unknownRuleType ""
  | .unknownParameterType _ => .unknownParameterType .nothing
  | .parameter type name fault => .parameter type name fault.expectation
  | fault => fault

namespace Schema

/-- Two rules expect the same at the same place, whatever was found there. -/
def Rule.SameCheck (r r' : Rule) : Prop :=
  r.place = r'.place ∧ r.fault.expectation = r'.fault.expectation

/-- A repair of a rule of which the rules `front` stand before: the value `w` is put where `moves`
    lead, at the place of the rule, which is `steps` behind `base`. -/
structure Repair (keeps : Value → Prop) (base : Place) (rules : Value → List Rule) (v : Value)
    (front : List Rule) (rule : Rule) (steps : Place) (moves : List Move) (w : Value) : Prop where
  place : rule.place = base ++ steps
  locates : v.Locates steps moves
  proper : v.Proper → (v.put moves w).Proper
  keeps : keeps (v.put moves w)
  /-- The rules before are the same, the rule is kept, and what is behind may be anything. -/
  rules : ∃ rule' back, rules (v.put moves w) = front ++ rule' :: back ∧ rule.SameCheck rule' ∧
    rule'.kept = true

/-- Whichever rule is the first one that the value breaks, it can be repaired such that `keeps` holds
    of the value that results. -/
def Repairable (keeps : Value → Prop) (base : Place) (rules : Value → List Rule)
    (v : Value) : Prop :=
  ∀ front rule back, rules v = front ++ rule :: back → (∀ r ∈ front, r.kept = true) →
    rule.kept = false → ∃ steps moves w, Repair keeps base rules v front rule steps moves w

/-- The second value is a mapping that has the fields of the first, but for one. -/
structure SameBut (key : String) (v v' : Value) : Prop where
  mapping : v'.isMapping = true
  field : ∀ key', key' ≠ key → v'.field key' = v.field key'

/-! ## Positions -/

variable {keeps keeps' : Value → Prop} {base : Place} {rules rules' : Value → List Rule} {v : Value}

/-- Below null there is no position. -/
theorem locates_null {steps : Place} {moves : List Move} (h : Value.null.Locates steps moves) :
    steps = [] ∧ moves = [] := by
  cases h with
  | here => exact ⟨rfl, rfl⟩
  | missing hMapping => cases hMapping
  | field hChild | item hChild => cases hChild
  | entry hEntry => cases hEntry

/-- A field of a mapping is a position whether it is there or not. -/
theorem locates_field (hMapping : v.isMapping = true) {key : String} {steps : Place}
    {moves : List Move} (h : (v.field key).Locates steps moves) :
    v.Locates (.field key :: steps) (.field key :: moves) := by
  cases hChild : v.child? (.field key) with
  | some child =>
    have hField : v.field key = child := by
      rw [Value.field, show v.entries.get? key = some child from hChild, Option.getD_some]
    exact .field hChild (hField ▸ h)
  | none =>
    have hField : v.field key = .null := by
      rw [Value.field, show v.entries.get? key = none from hChild, Option.getD_none]
    rw [hField] at h
    obtain ⟨rfl, rfl⟩ := locates_null h
    exact .missing hMapping hChild

theorem proper_field (h : v.Proper) (key : String) : (v.field key).Proper := by
  cases hChild : v.entries.get? key with
  | some child =>
    rw [Value.field, hChild, Option.getD_some]
    exact Value.Proper.child (m := .field key) h hChild
  | none =>
    rw [Value.field, hChild, Option.getD_none]
    exact .null

theorem sameBut_setChild (hMapping : v.isMapping = true) (key : String) (w : Value) :
    SameBut key v (v.setChild (.field key) w) where
  mapping := (isMapping_congr (Value.ofValue_setChild _ _ _)).trans hMapping
  field _ hKey := Value.field_setChild_of_ne hMapping hKey w

/-! ## Rules one after another -/

theorem Repairable.nil (h : rules v = []) : Repairable keeps base rules v := by
  intro front rule back hRules
  simp [h] at hRules

theorem Repairable.mono (h : Repairable keeps' base rules v) (hKeeps : ∀ v', keeps' v' → keeps v') :
    Repairable keeps base rules v := by
  intro front rule back hRules hFront hBroken
  obtain ⟨steps, moves, w, hRepair⟩ := h front rule back hRules hFront hBroken
  exact ⟨steps, moves, w, { hRepair with keeps := hKeeps _ hRepair.keeps }⟩

/-- Rules that are the same here, and stay the same under a repair. -/
theorem Repairable.congr (h : Repairable keeps base rules' v) (hHere : rules v = rules' v)
    (hThere : ∀ v', keeps v' → rules v' = rules' v') : Repairable keeps base rules v := by
  intro front rule back hRules hFront hBroken
  obtain ⟨steps, moves, w, hRepair⟩ := h front rule back (hHere ▸ hRules) hFront hBroken
  refine ⟨steps, moves, w, { hRepair with rules := ?_ }⟩
  rw [hThere _ hRepair.keeps]
  exact hRepair.rules

/-- A rule that looks at the value itself is repaired by another value in its place. -/
theorem Repairable.here {rule : Value → Rule} (w : Value) (hPlace : (rule v).place = base)
    (hProper : v.Proper → w.Proper) (hKeeps : keeps w) (hCheck : (rule v).SameCheck (rule w))
    (hKept : (rule w).kept = true) : Repairable keeps base (fun v => [rule v]) v := by
  intro front rule' back hRules _ _
  obtain ⟨rfl, rfl, rfl⟩ : front = [] ∧ rule' = rule v ∧ back = [] := by
    cases front <;> simp_all
  exact ⟨[], [], w, {
    place := by rw [hPlace, List.append_nil]
    locates := .here v
    proper := hProper
    keeps := hKeeps
    rules := ⟨rule w, [], rfl, hCheck, hKept⟩ }⟩

/-- Behind rules that are kept a repair must leave these as they are. -/
theorem Repairable.append (h : Repairable keeps base rules v)
    (h' : (∀ r ∈ rules v, r.kept = true) →
      Repairable (fun v' => keeps v' ∧ rules v' = rules v) base rules' v) :
    Repairable keeps base (fun v => rules v ++ rules' v) v := by
  intro front rule back hRules hFront hBroken
  rcases append_eq_append_cons_cases hRules with ⟨back', hFirst⟩ | ⟨front', rfl, hSecond⟩
  · obtain ⟨steps, moves, w, hRepair⟩ := h front rule back' hFirst hFront hBroken
    obtain ⟨rule', behind, hBehind, hRule'⟩ := hRepair.rules
    refine ⟨steps, moves, w, { hRepair with
      rules := ⟨rule', behind ++ rules' (v.put moves w), ?_, hRule'⟩ }⟩
    rw [hBehind, List.append_assoc, List.cons_append]
  · obtain ⟨hKept, hFront'⟩ := List.forall_mem_append.mp hFront
    obtain ⟨steps, moves, w, hRepair⟩ := h' hKept front' rule back hSecond hFront' hBroken
    obtain ⟨rule', behind, hBehind, hRule'⟩ := hRepair.rules
    refine ⟨steps, moves, w, { hRepair with
      keeps := hRepair.keeps.1, rules := ⟨rule', behind, ?_, hRule'⟩ }⟩
    rw [hRepair.keeps.2, hBehind, List.append_assoc]

theorem Repairable.cons {rule : Value → Rule} (h : Repairable keeps base (fun v => [rule v]) v)
    (h' : (rule v).kept = true →
      Repairable (fun v' => keeps v' ∧ rule v' = rule v) base rules' v) :
    Repairable keeps base (fun v => rule v :: rules' v) v := by
  refine h.append fun hKept => ?_
  refine (h' (hKept _ (List.mem_singleton_self _))).mono ?_
  rintro v' ⟨hKeeps, hRule⟩
  exact ⟨hKeeps, by rw [hRule]⟩

/-- Rules for a value that may be null. -/
theorem Repairable.optional
    (h : v.isNull = false → Repairable (fun v' => keeps v' ∧ v'.isNull = false) base rules v) :
    Repairable keeps base (fun v => optionalRules v (rules v)) v := by
  cases hNull : v.isNull with
  | true => exact .nil (by rw [optionalRules, hNull, if_pos rfl])
  | false =>
    refine ((h hNull).congr (by rw [optionalRules, hNull, if_neg (by simp)]) ?_).mono
      fun _ => And.left
    rintro v' ⟨-, hNull'⟩
    rw [optionalRules, hNull', if_neg (by simp)]

/-! ## Rules below a value -/

/-- Rules for a field of a mapping. A repair changes this field only. -/
theorem Repairable.field (key : String) (rules : Value → List Rule)
    (h : Repairable keeps' (base ++ [.field key]) rules (v.field key))
    (hMapping : v.isMapping = true)
    (hKeeps : ∀ v', SameBut key v v' → keeps' (v'.field key) → keeps v') :
    Repairable keeps base (fun v => rules (v.field key)) v := by
  intro front rule back hRules hFront hBroken
  obtain ⟨steps, moves, w, hRepair⟩ := h front rule back hRules hFront hBroken
  have hPut : v.put (.field key :: moves) w = v.setChild (.field key) ((v.field key).put moves w) :=
    rfl
  have hField : (v.put (.field key :: moves) w).field key = (v.field key).put moves w := by
    rw [hPut, Value.field_setChild_self hMapping]
  exact ⟨.field key :: steps, .field key :: moves, w, {
    place := by rw [hRepair.place, List.append_assoc, List.singleton_append]
    locates := locates_field hMapping hRepair.locates
    proper := fun hv => hPut ▸ hv.setChild (hRepair.proper (proper_field hv key))
    keeps := hKeeps _ (hPut ▸ sameBut_setChild hMapping key _) (hField ▸ hRepair.keeps)
    rules := hField ▸ hRepair.rules }⟩

/-- A rule that looks at a field of a mapping. -/
theorem Repairable.leaf (key : String) (rule : Value → Rule) (w : Value)
    (hPlace : (rule (v.field key)).place = base ++ [.field key]) (hProper : w.Proper)
    (hCheck : (rule (v.field key)).SameCheck (rule w)) (hKept : (rule w).kept = true)
    (hMapping : v.isMapping = true) (hKeeps : ∀ v', SameBut key v v' → keeps v') :
    Repairable keeps base (fun v => [rule (v.field key)]) v := by
  have hHere : Repairable (fun _ => True) (base ++ [.field key]) (fun u => [rule u])
      (v.field key) :=
    .here w hPlace (fun _ => hProper) trivial hCheck hKept
  exact .field key _ hHere hMapping fun v' hSame _ => hKeeps v' hSame

/-- A rule that looks at a field which may be null. -/
theorem Repairable.optionalLeaf (key : String) (rule : Value → Rule) (w : Value)
    (hPlace : (rule (v.field key)).place = base ++ [.field key]) (hProper : w.Proper)
    (hCheck : (rule (v.field key)).SameCheck (rule w)) (hKept : (rule w).kept = true)
    (hNull : w.isNull = false) (hMapping : v.isMapping = true)
    (hKeeps : ∀ v', SameBut key v v' → keeps v') :
    Repairable keeps base (fun v => optionalRules (v.field key) [rule (v.field key)]) v := by
  have hHere : Repairable (fun _ => True) (base ++ [.field key])
      (fun u => optionalRules u [rule u]) (v.field key) :=
    .optional fun _ => .here w hPlace (fun _ => hProper) ⟨trivial, hNull⟩ hCheck hKept
  exact .field key _ hHere hMapping fun v' hSame _ => hKeeps v' hSame

/-- Rules for the items of a list. A repair changes one item only. -/
theorem Repairable.numbered {rules : Place → Value → List Rule}
    (h : ∀ place v, Repairable (fun _ => True) place (rules place) v)
    (hKeeps : ∀ v', Found.ofValue v' = Found.ofValue v → keeps v') :
    Repairable keeps base (fun v => Schema.numbered base rules 0 v.items) v := by
  intro front rule back hRules hFront hBroken
  unfold Schema.numbered at hRules
  obtain ⟨before, ⟨child, i⟩, behind, front', back', hSplit, rfl, hChild⟩ :=
    exists_of_flatMap_eq_append_cons hRules
  obtain ⟨xs, ys, hItems, rfl, hAt⟩ := List.zipIdx_eq_append_iff.mp hSplit
  cases ys with
  | nil => cases hAt
  | cons child' ys =>
    obtain ⟨⟨rfl, rfl⟩, rfl⟩ := by simpa using hAt
    obtain ⟨steps, moves, w, hRepair⟩ :=
      h _ child front' rule back' hChild (List.forall_mem_append.mp hFront).2 hBroken
    have hAt : v.child? (.item xs.length) = some child := by simp [Value.child?, hItems]
    have hPut : v.put (.item xs.length :: moves) w =
        v.setChild (.item xs.length) (child.put moves w) := by
      rw [Value.put, hAt, Option.getD_some]
    have hItems' : (v.put (.item xs.length :: moves) w).items = xs ++ child.put moves w :: ys := by
      simp [hPut, Value.items_setChild, hItems]
    obtain ⟨rule', behind, hBehind, hRule'⟩ := hRepair.rules
    refine ⟨.item xs.length :: steps, .item xs.length :: moves, w, {
      place := by rw [hRepair.place, List.append_assoc, List.singleton_append]
      locates := .item hAt hRepair.locates
      proper := fun hv => hPut ▸ hv.setChild (hRepair.proper (hv.child hAt))
      keeps := hKeeps _ (hPut ▸ Value.ofValue_setChild _ _ _)
      rules := ⟨rule', behind ++ Schema.numbered base rules (xs.length + 1) ys, ?_, hRule'⟩ }⟩
    simp only [Schema.numbered, hItems', List.zipIdx_append, List.zipIdx_cons, List.flatMap_append,
      List.flatMap_cons, Nat.zero_add] at hBehind ⊢
    rw [hBehind]
    simp

/-- Rules for a list: that it is one, and those for its items. -/
theorem Repairable.list {rules : Place → Value → List Rule} (fault : Fault)
    (h : ∀ place v, Repairable (fun _ => True) place (rules place) v)
    (hKeeps : ∀ v', v'.isList = true → keeps v') :
    Repairable keeps base (listRules base fault rules) v := by
  refine .cons (.here (.sequence []) rfl (fun _ => .sequence (by simp)) (hKeeps _ rfl)
    ⟨rfl, rfl⟩ rfl) fun hList => ?_
  refine .numbered h fun v' hFound => ?_
  have hList' : v'.isList = v.isList := isList_congr hFound
  exact ⟨hKeeps v' (hList'.trans hList), by rw [hList']⟩

end Schema

end SnippetAudit
