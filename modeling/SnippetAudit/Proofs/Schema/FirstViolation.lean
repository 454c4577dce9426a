import SnippetAudit.Proofs.Schema.CheckingOrder

/-!
# The first violation

A document that fails does so with the first of its broken rules, however many others it breaks. So
what a violation names has everything before it in order, and nothing that is only read later can
change it: neither what stands behind the reported index of a list nor a part that is checked
after the part with the violation.

Results:
* `within_decisionRules`, `within_policyRules`, `within_parameterRules`: a violation lies in the
  part whose check found it.
* `firstBroken?_listRules`: what a violation with an index says about a list.
* `firstBroken?_documentRules_cases`: the parts before the one with the violation keep their rules.
* `checkEach_append`: a list is checked as its front, and then the rest from the next index.
* `ofDocument_eq_error_iff_failsFirst`: the violation of a document, and what follows from it.
-/

namespace SnippetAudit

open Yaml (Value Entries)

namespace Schema

variable {α : Type}

/-! ## Specification -/

/-- The value of `schema.decision`, or null. -/
def decisionOf (document : Value) : Value := (document.field "schema").field "decision"

/-- The value of `schema.parameters`, or null. -/
def parametersOf (document : Value) : Value := (document.field "schema").field "parameters"

/-- The rules for `policy`. -/
def policyPart (document : Value) : List Rule :=
  optionalRules (document.field "policy") (policyRules (document.field "policy"))

/-- Title and description are strings. -/
def HasHeader (document : Value) : Prop :=
  (document.field "title").isString = true ∧ (document.field "description").isString = true

/-- A document has the violation as the first of its broken rules, with what this says about the
    items of its lists and about other documents. -/
structure FailsFirst (document : Value) (e : Violation) : Prop where
  /-- Some rule is broken with the violation, and all rules before it are kept. -/
  first : ∃ front rule back, documentRules document = front ++ rule :: back ∧
    (∀ r ∈ front, r.kept = true) ∧ rule.kept = false ∧ rule.violation = e
  /-- Whatever other rules stand behind the broken one, the violation is the same. -/
  later : ∀ front rule back, documentRules document = front ++ rule :: back →
    (∀ r ∈ front, r.kept = true) → rule.kept = false →
    ∀ document' back', documentRules document' = front ++ rule :: back' →
      Metadata.ofDocument document' = .error e
  /-- What stands in the parts behind the one with the violation does not matter. -/
  parts : (e.place = [] →
      ∀ document', ¬ HasHeader document' → Metadata.ofDocument document' = .error e) ∧
    (decisionPlace <+: e.place →
      ∀ document', HasHeader document' → decisionOf document' = decisionOf document →
        Metadata.ofDocument document' = .error e) ∧
    ([.field "policy"] <+: e.place →
      ∀ document', HasHeader document' → decisionOf document' = decisionOf document →
        document'.field "policy" = document.field "policy" →
        Metadata.ofDocument document' = .error e)
  /-- The decisions before a reported index pass, and those behind it do not matter. -/
  decision : ∀ i steps, e.place = decisionPlace ++ .item i :: steps →
    (∀ j < i, ∃ v d, (decisionOf document).items[j]? = some v ∧
      checkDecision (decisionPlace ++ [.item j]) v = .ok d) ∧
    ∀ document', HasHeader document' →
      (decisionOf document').items.take (i + 1) = (decisionOf document).items.take (i + 1) →
      Metadata.ofDocument document' = .error e
  /-- The switches before a reported index pass, and those behind it do not matter. -/
  toggles : ∀ i k steps,
    e.place = decisionPlace ++ [.item i, .field "toggles"] ++ .item k :: steps →
    ∃ v, (decisionOf document).items[i]? = some v ∧
      (∀ j < k, ∃ w t, (v.field "toggles").items[j]? = some w ∧
        checkToggleEntry (decisionPlace ++ [.item i, .field "toggles", .item j]) w = .ok t) ∧
      ∀ document' v', HasHeader document' →
        (decisionOf document').items.take i = (decisionOf document).items.take i →
        (decisionOf document').items[i]? = some v' → v'.field "type" = v.field "type" →
        v'.field "label" = v.field "label" →
        (v'.field "toggles").items.take (k + 1) = (v.field "toggles").items.take (k + 1) →
        Metadata.ofDocument document' = .error e
  /-- The parameters before a reported index pass, and those behind it do not matter. -/
  parameters : ∀ i steps, e.place = parametersPlace ++ .item i :: steps →
    (∀ j < i, ∃ v p, (parametersOf document).items[j]? = some v ∧
      checkParameter (parametersPlace ++ [.item j]) v = .ok p) ∧
    ∀ document', HasHeader document' → decisionOf document' = decisionOf document →
      document'.field "policy" = document.field "policy" →
      (parametersOf document').items.take (i + 1) = (parametersOf document).items.take (i + 1) →
      Metadata.ofDocument document' = .error e

/-! ## Checks and violations -/

theorem violation?_eq_some_iff {x : Checked α} {e : Violation} :
    violation? x = some e ↔ x = .error e := by
  cases x <;> simp [violation?]

theorem violation?_eq_none_iff {x : Checked α} : violation? x = none ↔ ∃ a, x = .ok a := by
  cases x <;> simp [violation?]

/-- What has no broken rule passes its check. -/
theorem Obeys.exists_ok {x : Checked α} {rules : List Rule} (h : Obeys x rules)
    (hKept : firstBroken? rules = none) : ∃ a, x = .ok a := by
  unfold Obeys at h
  rw [hKept] at h
  exact violation?_eq_none_iff.mp h

theorem ofDocument_eq_error_iff {document : Value} {e : Violation} :
    Metadata.ofDocument document = .error e ↔ firstBroken? (documentRules document) = some e := by
  rw [← violation?_eq_some_iff, obeys_ofDocument document]

/-! ## Where violations lie -/

/-- Every rule looks at a place or below it. -/
def Within (place : Place) (rules : List Rule) : Prop := ∀ r ∈ rules, place <+: r.place

@[simp] theorem within_nil (place : Place) : Within place [] := by
  intro r hr
  cases hr

@[simp] theorem within_cons {place : Place} {rule : Rule} {rules : List Rule} :
    Within place (rule :: rules) ↔ place <+: rule.place ∧ Within place rules :=
  List.forall_mem_cons

@[simp] theorem within_append {place : Place} {rules rules' : List Rule} :
    Within place (rules ++ rules') ↔ Within place rules ∧ Within place rules' :=
  List.forall_mem_append

@[simp] theorem within_optionalRules {place : Place} {v : Value} {rules : List Rule}
    (h : Within place rules) : Within place (optionalRules v rules) := by
  unfold optionalRules
  split
  · exact within_nil place
  · exact h

theorem Within.mono {place place' : Place} {rules : List Rule} (h : Within place' rules)
    (hPlace : place <+: place') : Within place rules :=
  fun r hr => hPlace.trans (h r hr)

/-- The rules for the items of a list look at these. -/
theorem within_listRules {base : Place} {fault : Fault} {rules : Place → Value → List Rule}
    (h : ∀ place v, Within place (rules place v)) (v : Value) :
    Within base (listRules base fault rules v) := by
  refine within_cons.mpr ⟨List.prefix_refl base, ?_⟩
  intro r hr
  obtain ⟨⟨w, j⟩, _, hr⟩ := List.mem_flatMap.mp hr
  exact (List.prefix_append base [.item j]).trans (h _ w r hr)

theorem within_toggleRules (place : Place) (v : Value) : Within place (toggleRules place v) := by
  simp [toggleRules]

theorem within_decisionRules (place : Place) (v : Value) :
    Within place (decisionRules place v) := by
  have hToggles : Within place
      (listRules (place ++ [.field "toggles"]) .togglesNotArray toggleRules (v.field "toggles")) :=
    (within_listRules within_toggleRules _).mono (List.prefix_append place _)
  unfold decisionRules decisionTagRules
  split <;> simp [hToggles]

theorem within_policyRules (v : Value) : Within [.field "policy"] (policyRules v) := by
  simp [policyRules]

@[simp] theorem Scope.place_rule (s : Scope) (steps : Place) (fault : ParameterFault)
    (kept : Bool) : (s.rule steps fault kept).place = s.place ++ steps := rfl

theorem within_itemsRules (s : Scope) (v : Value) : Within s.place (s.itemsRules v) := by
  have hSources : Within s.place ((Scope.sources v).map fun source =>
      s.rule [.field "items", .field source.key] (.sourceNotString source)
        (v.field source.key).isString) := by
    intro r hr
    obtain ⟨source, _, rfl⟩ := List.mem_map.mp hr
    exact List.prefix_append s.place _
  unfold Scope.itemsRules
  split <;> simp [hSources]

theorem within_typedDefaultRules (s : Scope) (v : Value) (type? : Option ValueType) :
    Within s.place (s.typedDefaultRules v type?) := by
  cases type? with
  | none => exact within_nil s.place
  | some type =>
    intro r hr
    obtain ⟨entry, _, hr⟩ := List.mem_flatMap.mp hr
    have hEntry : Within s.place (s.defaultEntryRules type entry) := by
      cases type <;> simp [Scope.defaultEntryRules, Scope.defaultValueRules]
    exact hEntry r hr

theorem within_kindRules (s : Scope) (v : Value) : Within s.place (s.kindRules v) := by
  unfold Scope.kindRules
  cases s.type <;>
    simp [Scope.stringRules, Scope.objectRules, within_itemsRules, within_typedDefaultRules]

theorem within_parameterRules (place : Place) (v : Value) :
    Within place (parameterRules place v) := by
  have hTyped : ∀ type?, Within place (typedRules place v type?) := by
    intro type?
    cases type? with
    | none => exact within_nil place
    | some type =>
      have hKind := within_kindRules ⟨place, type, (v.field "name").asString?.getD ""⟩ v
      simp [typedRules, Scope.rules, Scope.stringRules, Scope.boolRules, hKind]
  simp [parameterRules, hTyped]

/-- A violation lies where the rules look. -/
theorem Within.prefix_place {place : Place} {rules : List Rule} (h : Within place rules)
    {e : Violation} (he : firstBroken? rules = some e) : place <+: e.place := by
  obtain ⟨front, rule, back, rfl, _, _, rfl⟩ := firstBroken?_eq_some_iff.mp he
  exact h rule (by simp)

/-! ## Violations in lists -/

/-- What has an item is a list, and not null. -/
theorem of_items_getElem? {v w : Value} {i : ℕ} (h : v.items[i]? = some w) :
    v.isList = true ∧ v.isNull = false := by
  unfold Value.items Value.asSequence? at h
  unfold Value.isList Value.isNull Value.asSequence?
  cases hv : v.untag <;> simp [hv] at h ⊢

/-- A violation at an item comes from the rules for this item, and the items before it keep
    theirs. -/
theorem firstBroken?_listRules {base : Place} {fault : Fault} {rules : Place → Value → List Rule}
    (hWithin : ∀ place v, Within place (rules place v)) {v : Value} {e : Violation} {i : ℕ}
    {steps : Place} (h : firstBroken? (listRules base fault rules v) = some e)
    (hPlace : e.place = base ++ .item i :: steps) :
    ∃ w, v.items[i]? = some w ∧ firstBroken? (rules (base ++ [.item i]) w) = some e ∧
      ∀ j < i, ∃ u, v.items[j]? = some u ∧ firstBroken? (rules (base ++ [.item j]) u) = none := by
  rw [listRules, firstBroken?_cons] at h
  split at h
  · obtain ⟨n, w, hItem, hBroken, hFront⟩ := firstBroken?_numbered.mp h
    simp only [Nat.zero_add] at hBroken hFront
    obtain rfl : n = i := by
      have hAt := (hWithin _ w).prefix_place hBroken
      rw [hPlace, List.prefix_append_right_inj, List.cons_prefix_cons] at hAt
      exact Step.item.inj hAt.1
    refine ⟨w, hItem, hBroken, ?_⟩
    intro j hj
    have hLength := (List.getElem?_eq_some_iff.mp hItem).1
    exact ⟨_, List.getElem?_eq_getElem (by omega), hFront j _ hj (List.getElem?_eq_getElem _)⟩
  · cases h
    simp [Rule.violation] at hPlace

/-- A list of which the first items keep their rules has the violation of the item behind them. -/
theorem firstBroken?_listRules_eq {base : Place} {fault : Fault}
    {rules : Place → Value → List Rule} {v v' w : Value} {e : Violation} {i : ℕ}
    (hKept : ∀ j < i, ∃ u, v.items[j]? = some u ∧ firstBroken? (rules (base ++ [.item j]) u) = none)
    (hFront : v'.items.take i = v.items.take i) (hItem : v'.items[i]? = some w)
    (hBroken : firstBroken? (rules (base ++ [.item i]) w) = some e) :
    firstBroken? (optionalRules v' (listRules base fault rules v')) = some e := by
  obtain ⟨hList, hNull⟩ := of_items_getElem? hItem
  rw [optionalRules, hNull, if_neg (by simp), listRules, firstBroken?_cons, if_pos hList]
  refine firstBroken?_numbered.mpr ⟨i, w, hItem, by rw [Nat.zero_add]; exact hBroken, ?_⟩
  intro j u hj hu
  obtain ⟨u', hu', hNone⟩ := hKept j hj
  have hSame : v'.items[j]? = v.items[j]? := by
    rw [← List.getElem?_take_of_lt hj, hFront, List.getElem?_take_of_lt hj]
  rw [hSame, hu'] at hu
  cases hu
  rw [Nat.zero_add]
  exact hNone

/-- A list is checked as its front, and then the rest from the next index. -/
theorem checkEach_append (check : Nat → Value → Checked α) (i : Nat) (xs ys : List Value) :
    checkEach check i (xs ++ ys) = do
      let front ← checkEach check i xs
      let back ← checkEach check (i + xs.length) ys
      return front ++ back := by
  induction xs generalizing i with
  | nil =>
    change checkEach check i ys = checkEach check i ys >>= pure
    cases checkEach check i ys <;> rfl
  | cons v xs ih =>
    have hIndex : i + 1 + xs.length = i + (v :: xs).length := by
      rw [List.length_cons]
      omega
    rw [List.cons_append, checkEach, checkEach, ih, hIndex]
    cases check i v with
    | error e => rfl
    | ok a =>
      cases checkEach check (i + 1) xs with
      | error e => rfl
      | ok front => cases checkEach check (i + (v :: xs).length) ys <;> rfl

/-! ## Violations in documents -/

theorem firstBroken?_documentRules (document : Value) :
    firstBroken? (documentRules document) =
      if (headerRule document).kept then
        (firstBroken? (decisionListRules (decisionOf document))).or
          ((firstBroken? (policyPart document)).or
            (firstBroken? (parameterListRules (parametersOf document))))
      else some (headerRule document).violation := by
  unfold documentRules decisionOf policyPart parametersOf
  rw [List.append_assoc, List.append_assoc, List.cons_append, List.nil_append, firstBroken?_cons,
    firstBroken?_append, firstBroken?_append]

theorem headerRule_kept_iff {document : Value} :
    (headerRule document).kept = true ↔ HasHeader document :=
  Bool.and_eq_true_iff

theorem firstBroken?_optionalRules {v : Value} {rules : List Rule} {e : Violation}
    (h : firstBroken? (optionalRules v rules) = some e) : firstBroken? rules = some e := by
  unfold optionalRules at h
  split at h
  · cases h
  · exact h

theorem within_decisionListRules (v : Value) : Within decisionPlace (decisionListRules v) :=
  within_optionalRules (within_listRules within_decisionRules v)

theorem within_parameterListRules (v : Value) : Within parametersPlace (parameterListRules v) :=
  within_optionalRules (within_listRules within_parameterRules v)

theorem within_policyPart (document : Value) : Within [.field "policy"] (policyPart document) :=
  within_optionalRules (within_policyRules _)

/-- The first violation is in the header, or in the first of the other parts that has one. -/
theorem firstBroken?_documentRules_cases {document : Value} {e : Violation}
    (h : firstBroken? (documentRules document) = some e) :
    (¬ HasHeader document ∧ e = ⟨[], .titleOrDescription⟩) ∨
    (decisionPlace <+: e.place ∧
      firstBroken? (decisionListRules (decisionOf document)) = some e) ∨
    ([.field "policy"] <+: e.place ∧
      firstBroken? (decisionListRules (decisionOf document)) = none ∧
      firstBroken? (policyPart document) = some e) ∨
    (parametersPlace <+: e.place ∧
      firstBroken? (decisionListRules (decisionOf document)) = none ∧
      firstBroken? (policyPart document) = none ∧
      firstBroken? (parameterListRules (parametersOf document)) = some e) := by
  rw [firstBroken?_documentRules] at h
  split at h
  · right
    rcases Option.or_eq_some_iff.mp h with hDecision | ⟨hDecision, hBehind⟩
    · exact .inl ⟨(within_decisionListRules _).prefix_place hDecision, hDecision⟩
    · right
      rcases Option.or_eq_some_iff.mp hBehind with hPolicy | ⟨hPolicy, hParameters⟩
      · exact .inl ⟨(within_policyPart _).prefix_place hPolicy, hDecision, hPolicy⟩
      · exact .inr ⟨(within_parameterListRules _).prefix_place hParameters, hDecision, hPolicy,
          hParameters⟩
  · rename_i hHeader
    rw [headerRule_kept_iff] at hHeader
    exact .inl ⟨hHeader, (Option.some.inj h).symm⟩

/-- A violation at or below `schema.decision` is the first one there. -/
theorem firstBroken?_decision {document : Value} {e : Violation}
    (h : firstBroken? (documentRules document) = some e) (hPlace : decisionPlace <+: e.place) :
    firstBroken? (decisionListRules (decisionOf document)) = some e := by
  obtain ⟨steps, hSteps⟩ := hPlace
  rcases firstBroken?_documentRules_cases h with ⟨_, rfl⟩ | ⟨_, hDecision⟩ | ⟨hAt, _⟩ | ⟨hAt, _⟩
  · simp [decisionPlace] at hSteps
  · exact hDecision
  · simp [← hSteps, decisionPlace] at hAt
  · simp [← hSteps, decisionPlace, parametersPlace] at hAt

/-- A violation at or below `policy` is the first one there, and the decisions keep their rules. -/
theorem firstBroken?_policy {document : Value} {e : Violation}
    (h : firstBroken? (documentRules document) = some e) (hPlace : [.field "policy"] <+: e.place) :
    firstBroken? (decisionListRules (decisionOf document)) = none ∧
      firstBroken? (policyPart document) = some e := by
  obtain ⟨steps, hSteps⟩ := hPlace
  rcases firstBroken?_documentRules_cases h with ⟨_, rfl⟩ | ⟨hAt, _⟩ | ⟨_, hPolicy⟩ | ⟨hAt, _⟩
  · simp at hSteps
  · simp [← hSteps, decisionPlace] at hAt
  · exact hPolicy
  · simp [← hSteps, parametersPlace] at hAt

/-- A violation at or below `schema.parameters` is the first one there, and the other parts keep
    their rules. -/
theorem firstBroken?_parameters {document : Value} {e : Violation}
    (h : firstBroken? (documentRules document) = some e) (hPlace : parametersPlace <+: e.place) :
    firstBroken? (decisionListRules (decisionOf document)) = none ∧
      firstBroken? (policyPart document) = none ∧
      firstBroken? (parameterListRules (parametersOf document)) = some e := by
  obtain ⟨steps, hSteps⟩ := hPlace
  rcases firstBroken?_documentRules_cases h with ⟨_, rfl⟩ | ⟨hAt, _⟩ | ⟨hAt, _⟩ | ⟨_, hParameters⟩
  · simp [parametersPlace] at hSteps
  · simp [← hSteps, decisionPlace, parametersPlace] at hAt
  · simp [← hSteps, parametersPlace] at hAt
  · exact hParameters

/-- Only a mapping has a field with a text. -/
theorem isMapping_of_field {v : Value} {key text : String}
    (h : (v.field key).asString? = some text) : v.isMapping = true := by
  unfold Value.field Value.entries at h
  unfold Value.isMapping
  cases hv : v.asMapping? with
  | some entries => rfl
  | none =>
    rw [hv] at h
    cases h

/-- A violation at a switch is the first one in the list of a toggle decision whose label is in
    order. -/
theorem firstBroken?_decisionRules_iff {place : Place} {v : Value} {e : Violation} {k : ℕ}
    {steps : Place} (hPlace : e.place = place ++ [.field "toggles"] ++ .item k :: steps) :
    firstBroken? (decisionRules place v) = some e ↔
      (v.field "type").asString? = some "toggle" ∧ (v.field "label").isTruthy = true ∧
        (v.field "label").isString = true ∧
        firstBroken? (listRules (place ++ [.field "toggles"]) .togglesNotArray toggleRules
          (v.field "toggles")) = some e := by
  -- the other rules for a decision look at it, at its type or at its label
  have hHere : ∀ fault, some (Violation.mk place fault) ≠ some e := by
    rintro fault ⟨⟩
    simp at hPlace
  have hType : ∀ fault, some (Violation.mk (place ++ [.field "type"]) fault) ≠ some e := by
    rintro fault ⟨⟩
    simp at hPlace
  have hLabel : ∀ fault, some (Violation.mk (place ++ [.field "label"]) fault) ≠ some e := by
    rintro fault ⟨⟩
    simp at hPlace
  unfold decisionRules decisionTagRules
  simp only [List.cons_append, List.nil_append, firstBroken?_cons, Rule.violation]
  constructor
  · intro h
    split at h
    · split at h
      · split at h
        · rename_i hTag
          rw [firstBroken?_cons, firstBroken?_cons] at h
          split at h
          · split at h
            · exact ⟨hTag, ‹_›, ‹_›, h⟩
            · exact absurd h (hLabel _)
          · exact absurd h (hHere _)
        · rw [firstBroken?_cons] at h
          split at h
          · cases h
          · exact absurd h (hHere _)
        · cases h
      · exact absurd h (hType _)
    · exact absurd h (hHere _)
  · rintro ⟨hTag, hTruthy, hString, hList⟩
    simp only [isMapping_of_field hTag, hTag, firstBroken?_cons, hTruthy, hString, if_true]
    exact hList

/-! ## What follows from a violation -/

/-- A document whose decisions fail in turn fails as they do. -/
theorem ofDocument_of_decision {document : Value} (hHeader : HasHeader document) {e : Violation}
    (h : firstBroken? (decisionListRules (decisionOf document)) = some e) :
    Metadata.ofDocument document = .error e := by
  rw [ofDocument_eq_error_iff, firstBroken?_documentRules, if_pos (headerRule_kept_iff.mpr hHeader),
    h, Option.some_or]

/-- What stands in the parts behind the one with the violation does not matter. -/
theorem parts_of_error {document : Value} {e : Violation}
    (h : firstBroken? (documentRules document) = some e) :
    (e.place = [] →
      ∀ document', ¬ HasHeader document' → Metadata.ofDocument document' = .error e) ∧
    (decisionPlace <+: e.place →
      ∀ document', HasHeader document' → decisionOf document' = decisionOf document →
        Metadata.ofDocument document' = .error e) ∧
    ([.field "policy"] <+: e.place →
      ∀ document', HasHeader document' → decisionOf document' = decisionOf document →
        document'.field "policy" = document.field "policy" →
        Metadata.ofDocument document' = .error e) := by
  refine ⟨?_, ?_, ?_⟩
  · intro hPlace document' hHeader
    rw [ofDocument_eq_error_iff, firstBroken?_documentRules,
      if_neg (mt headerRule_kept_iff.mp hHeader)]
    rcases firstBroken?_documentRules_cases h with ⟨_, rfl⟩ | ⟨hAt, _⟩ | ⟨hAt, _⟩ | ⟨hAt, _⟩
    · rfl
    · simp [hPlace, decisionPlace] at hAt
    · simp [hPlace] at hAt
    · simp [hPlace, parametersPlace] at hAt
  · intro hPlace document' hHeader hDecision'
    apply ofDocument_of_decision hHeader
    rw [hDecision']
    exact firstBroken?_decision h hPlace
  · intro hPlace document' hHeader hDecision' hPolicy'
    obtain ⟨hDecision, hPolicy⟩ := firstBroken?_policy h hPlace
    rw [ofDocument_eq_error_iff, firstBroken?_documentRules,
      if_pos (headerRule_kept_iff.mpr hHeader), policyPart, hDecision', hDecision, hPolicy',
      ← policyPart, hPolicy, Option.none_or, Option.some_or]

/-- The decisions before a reported index pass, and those behind it do not matter. -/
theorem decision_of_error {document : Value} {e : Violation}
    (h : firstBroken? (documentRules document) = some e) {i : ℕ} {steps : Place}
    (hPlace : e.place = decisionPlace ++ .item i :: steps) :
    (∀ j < i, ∃ v d, (decisionOf document).items[j]? = some v ∧
      checkDecision (decisionPlace ++ [.item j]) v = .ok d) ∧
    ∀ document', HasHeader document' →
      (decisionOf document').items.take (i + 1) = (decisionOf document).items.take (i + 1) →
      Metadata.ofDocument document' = .error e := by
  obtain ⟨v, hItem, hBroken, hKept⟩ :=
    firstBroken?_listRules within_decisionRules
      (firstBroken?_optionalRules (firstBroken?_decision h ⟨_, hPlace.symm⟩)) hPlace
  constructor
  · intro j hj
    obtain ⟨u, hu, hNone⟩ := hKept j hj
    obtain ⟨d, hd⟩ := (obeys_checkDecision _ u).exists_ok hNone
    exact ⟨u, d, hu, hd⟩
  · intro document' hHeader hItems
    obtain ⟨hFront, hSame⟩ := take_and_getElem?_of_take_succ hItems
    exact ofDocument_of_decision hHeader
      (firstBroken?_listRules_eq hKept hFront (hSame.trans hItem) hBroken)

/-- The switches before a reported index pass, and those behind it do not matter. -/
theorem toggles_of_error {document : Value} {e : Violation}
    (h : firstBroken? (documentRules document) = some e) {i k : ℕ} {steps : Place}
    (hPlace : e.place = decisionPlace ++ [.item i, .field "toggles"] ++ .item k :: steps) :
    ∃ v, (decisionOf document).items[i]? = some v ∧
      (∀ j < k, ∃ w t, (v.field "toggles").items[j]? = some w ∧
        checkToggleEntry (decisionPlace ++ [.item i, .field "toggles", .item j]) w = .ok t) ∧
      ∀ document' v', HasHeader document' →
        (decisionOf document').items.take i = (decisionOf document).items.take i →
        (decisionOf document').items[i]? = some v' → v'.field "type" = v.field "type" →
        v'.field "label" = v.field "label" →
        (v'.field "toggles").items.take (k + 1) = (v.field "toggles").items.take (k + 1) →
        Metadata.ofDocument document' = .error e := by
  have hItemPlace : e.place = decisionPlace ++ .item i :: .field "toggles" :: .item k :: steps := by
    rw [hPlace, List.append_assoc]
    rfl
  have hTogglePlace :
      e.place = decisionPlace ++ [.item i] ++ [.field "toggles"] ++ .item k :: steps := by
    rw [hItemPlace]
    simp
  obtain ⟨v, hItem, hBroken, hKept⟩ :=
    firstBroken?_listRules within_decisionRules
      (firstBroken?_optionalRules (firstBroken?_decision h ⟨_, hItemPlace.symm⟩)) hItemPlace
  obtain ⟨hType, hTruthy, hString, hToggles⟩ :=
    (firstBroken?_decisionRules_iff hTogglePlace).mp hBroken
  obtain ⟨w, hSwitch, hSwitchBroken, hSwitchesKept⟩ :=
    firstBroken?_listRules within_toggleRules hToggles hTogglePlace
  refine ⟨v, hItem, ?_, ?_⟩
  · intro j hj
    obtain ⟨u, hu, hNone⟩ := hSwitchesKept j hj
    obtain ⟨t, ht⟩ := (obeys_checkToggleEntry _ u).exists_ok hNone
    simp only [List.append_assoc] at ht
    exact ⟨u, t, hu, ht⟩
  · intro document' v' hHeader hFront hItem' hType' hLabel' hItems
    obtain ⟨hSwitchFront, hSame⟩ := take_and_getElem?_of_take_succ hItems
    have hToggles' : firstBroken? (listRules (decisionPlace ++ [.item i] ++ [.field "toggles"])
        .togglesNotArray toggleRules (v'.field "toggles")) = some e :=
      firstBroken?_optionalRules
        (firstBroken?_listRules_eq hSwitchesKept hSwitchFront (hSame.trans hSwitch) hSwitchBroken)
    have hBroken' : firstBroken? (decisionRules (decisionPlace ++ [.item i]) v') = some e := by
      rw [firstBroken?_decisionRules_iff hTogglePlace, hType', hLabel']
      exact ⟨hType, hTruthy, hString, hToggles'⟩
    exact ofDocument_of_decision hHeader (firstBroken?_listRules_eq hKept hFront hItem' hBroken')

/-- The parameters before a reported index pass, and those behind it do not matter. -/
theorem parameters_of_error {document : Value} {e : Violation}
    (h : firstBroken? (documentRules document) = some e) {i : ℕ} {steps : Place}
    (hPlace : e.place = parametersPlace ++ .item i :: steps) :
    (∀ j < i, ∃ v p, (parametersOf document).items[j]? = some v ∧
      checkParameter (parametersPlace ++ [.item j]) v = .ok p) ∧
    ∀ document', HasHeader document' → decisionOf document' = decisionOf document →
      document'.field "policy" = document.field "policy" →
      (parametersOf document').items.take (i + 1) = (parametersOf document).items.take (i + 1) →
      Metadata.ofDocument document' = .error e := by
  obtain ⟨hDecision, hPolicy, hParameters⟩ := firstBroken?_parameters h ⟨_, hPlace.symm⟩
  obtain ⟨v, hItem, hBroken, hKept⟩ :=
    firstBroken?_listRules within_parameterRules (firstBroken?_optionalRules hParameters) hPlace
  constructor
  · intro j hj
    obtain ⟨u, hu, hNone⟩ := hKept j hj
    obtain ⟨p, hp⟩ := (obeys_checkParameter _ u).exists_ok hNone
    exact ⟨u, p, hu, hp⟩
  · intro document' hHeader hDecision' hPolicy' hItems
    obtain ⟨hFront, hSame⟩ := take_and_getElem?_of_take_succ hItems
    have hParameters' : firstBroken? (parameterListRules (parametersOf document')) = some e :=
      firstBroken?_listRules_eq hKept hFront (hSame.trans hItem) hBroken
    rw [ofDocument_eq_error_iff, firstBroken?_documentRules,
      if_pos (headerRule_kept_iff.mpr hHeader), policyPart, hDecision', hDecision, hPolicy',
      ← policyPart, hPolicy, hParameters', Option.none_or, Option.none_or]

end Schema

open Schema in
/-- A document fails with a violation iff this is the first of its broken rules, in the order of the
    schema; then the items before a reported index pass their checks, and what is only read after
    the broken rule does not matter. A list of decisions or of parameters is checked as its front,
    and then the rest from the next index. -/
theorem Metadata.ofDocument_eq_error_iff_failsFirst :
    (∀ document e, Metadata.ofDocument document = .error e ↔ FailsFirst document e) ∧
    (∀ xs ys, checkDecisions (.sequence (xs ++ ys)) = do
      let front ← checkDecisions (.sequence xs)
      let back ← checkEach (fun i => checkDecision (decisionPlace ++ [.item i])) xs.length ys
      return front ++ back) ∧
    ∀ xs ys, checkParameters (.sequence (xs ++ ys)) = do
      let front ← checkParameters (.sequence xs)
      let back ← checkEach (fun i => checkParameter (parametersPlace ++ [.item i])) xs.length ys
      return front ++ back := by
  refine ⟨?_, ?_, ?_⟩
  · intro document e
    rw [ofDocument_eq_error_iff]
    constructor
    · intro h
      refine ⟨firstBroken?_eq_some_iff.mp h, ?_, parts_of_error h,
        fun i steps => decision_of_error h, fun i k steps => toggles_of_error h,
        fun i steps => parameters_of_error h⟩
      intro front rule back hRules hFront hBroken document' back' hRules'
      have hSame : rule.violation = e := by
        have hRule := firstBroken?_eq_some_iff.mpr ⟨front, rule, back, hRules, hFront, hBroken, rfl⟩
        rw [h] at hRule
        exact (Option.some.inj hRule).symm
      rw [ofDocument_eq_error_iff, firstBroken?_eq_some_iff]
      exact ⟨front, rule, back', hRules', hFront, hBroken, hSame⟩
    · intro h
      exact firstBroken?_eq_some_iff.mpr h.first
  · intro xs ys
    have hAppend := checkEach_append (fun i => checkDecision (decisionPlace ++ [.item i])) 0 xs ys
    rw [Nat.zero_add] at hAppend
    exact hAppend
  · intro xs ys
    have hAppend :=
      checkEach_append (fun i => checkParameter (parametersPlace ++ [.item i])) 0 xs ys
    rw [Nat.zero_add] at hAppend
    exact hAppend

namespace Schema

/-- A document that breaks rules in its decisions, in its policy and in its parameters. -/
def crowded : Value :=
  .mapping
    [(.string "title", .string "t"), (.string "description", .string "d"),
      (.string "policy", .bool true),
      (.string "schema", .mapping
        [(.string "parameters", .string "p"),
          (.string "decision", .sequence
            [.mapping [(.string "type", .string "rego"), (.string "key", .string "k"),
                (.string "value", .string "v")],
              .mapping [(.string "type", .string "toggle"), (.string "label", .string "l"),
                (.string "toggles", .sequence
                  [.mapping [(.string "key", .string "a"), (.string "value", .bool false)],
                    .mapping [(.string "value", .string "on")], .null])],
              .string "rest"])])]

/-- Of the broken rules of `crowded` the key of a switch comes first. -/
theorem failsFirst_crowded :
    (documentRules crowded).countP (fun rule => !rule.kept) = 13 ∧
    FailsFirst crowded ⟨decisionPlace ++ [.item 1, .field "toggles"] ++ [.item 1, .field "key"],
      .toggleKeyNotString⟩ := by
  refine ⟨by decide +kernel, ?_⟩
  rw [← Metadata.ofDocument_eq_error_iff_failsFirst.1]
  rfl

end Schema

end SnippetAudit
