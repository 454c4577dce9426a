import SnippetAudit.Proofs.Lists
import SnippetAudit.Proofs.Schema.FirstViolation
import SnippetAudit.Proofs.Schema.Quotations

/-!
# Reading the path of a violation

The path of a violation is text. It is read back to the place step by step: a point goes before the
name of a field, and an index stands in brackets. The text of a key may hold points and brackets as
well; it stands behind the field `default` and goes on to the end of the path, and only there.

Results:
* `Place.Legible.read?_text`: a legible place is read back from its text.
* `allLegible_documentRules`: every rule for a document looks at a legible place.
* `Violation.read?_path`: the path of a violation is read as its place.
-/

namespace SnippetAudit

open Yaml (Value Entries)
open Schema (fieldNames)

/-! ## Specification -/

/-- Whether a character belongs to the name of a field: a point or a bracket is behind it. -/
def inName (c : Char) : Bool := c != '.' && c != '['

/-- The steps in a text, each with what it starts with. -/
def Place.readSteps? : List Char → Option Place
  | [] => some []
  | '.' :: cs =>
    let name := String.ofList (cs.takeWhile inName)
    let rest := cs.dropWhile inName
    if name = "default" ∧ rest.head? = some '.' then
      some [.field name, .entry (String.ofList rest.tail)]
    else (readSteps? rest).map (.field name :: ·)
  | '[' :: cs =>
    let rest := cs.dropWhile Numeral.isDigit
    if rest.head? = some ']' then
      (Numeral.digitsValue? 10 (cs.takeWhile Numeral.isDigit)).bind fun i =>
        (readSteps? rest.tail).map (.item i :: ·)
    else none
  | _ => none
termination_by cs => cs.length
decreasing_by
  · exact Nat.lt_succ_of_le (List.dropWhile_sublist _).length_le
  · exact Nat.lt_succ_of_le ((List.tail_sublist _).trans (List.dropWhile_sublist _)).length_le

/-- The texts of steps behind others. -/
def Place.chars (steps : Place) : List Char := steps.flatMap fun step => step.text.toList

/-- The place that a path is read as. -/
def Place.read? (path : String) : Option Place :=
  if path = "(root)" then some []
  else if path.toList.head? = some '[' then readSteps? path.toList
  else readSteps? ('.' :: path.toList)

/-- What a place is like for its text to be read back: its fields have the names that the schema has,
    and behind `default` stands nothing, or the key of an entry at the end. -/
inductive Place.Legible : Place → Prop
  | nil : Legible []
  | field {name : String} {steps : Place} (hName : name ∈ fieldNames) (hDefault : name ≠ "default")
    (h : Legible steps) : Legible (.field name :: steps)
  | item {i : ℕ} {steps : Place} (h : Legible steps) : Legible (.item i :: steps)
  | default : Legible [.field "default"]
  | entry {key : String} : Legible [.field "default", .entry key]

/-! ## Reading steps back -/

namespace Place

theorem inName_of_mem_fieldNames {name : String} (h : name ∈ fieldNames) :
    ∀ c ∈ name.toList, inName c = true := by
  have hAll : fieldNames.all (fun name => name.toList.all inName) = true := by decide +kernel
  exact List.all_eq_true.mp (List.all_eq_true.mp hAll name h)

/-- The texts of steps end the name before them. -/
theorem inName_head?_chars (steps : Place) : ∀ c ∈ steps.chars.head?, inName c = false := by
  intro c hc
  unfold chars at hc
  cases steps with
  | nil => cases hc
  | cons step steps =>
    cases step <;> simp [Step.text, String.toList_append] at hc <;> subst hc <;> decide

/-- A name is read up to the text of the next step. -/
theorem takeWhile_inName {name : String} (hName : name ∈ fieldNames) (steps : Place) :
    String.ofList ((name.toList ++ steps.chars).takeWhile inName) = name ∧
      (name.toList ++ steps.chars).dropWhile inName = steps.chars := by
  obtain ⟨hTake, hDrop⟩ :=
    takeWhile_append_of_head? (inName_of_mem_fieldNames hName) (inName_head?_chars steps)
  exact ⟨by rw [hTake, String.ofList_toList], hDrop⟩

theorem readSteps?_chars_field {name : String} (hName : name ∈ fieldNames) {steps : Place}
    (hKey : ¬ (name = "default" ∧ steps.chars.head? = some '.'))
    (h : readSteps? steps.chars = some steps) :
    readSteps? (chars (.field name :: steps)) = some (.field name :: steps) := by
  obtain ⟨hTake, hDrop⟩ := takeWhile_inName hName steps
  have hChars : chars (.field name :: steps) = '.' :: (name.toList ++ steps.chars) := by
    simp [chars, Step.text]
  rw [hChars, readSteps?]
  simp only [hTake, hDrop, if_neg hKey, h, Option.map_some]

theorem readSteps?_chars_item (i : ℕ) {steps : Place} (h : readSteps? steps.chars = some steps) :
    readSteps? (chars (.item i :: steps)) = some (.item i :: steps) := by
  obtain ⟨hTake, hDrop⟩ := @takeWhile_append_of_head? _ Numeral.isDigit (Nat.toDigits 10 i)
    (']' :: steps.chars)
    (fun c hc => Numeral.isDigit_iff.mpr (Numeral.isDigit_of_mem_toDigits hc))
    (by simp [Numeral.isDigit])
  have hChars : chars (.item i :: steps) = '[' :: (Nat.toDigits 10 i ++ ']' :: steps.chars) := by
    simp [chars, Step.text, Nat.toString_eq_repr, Nat.toList_repr]
  rw [hChars, readSteps?]
  simp only [hTake, hDrop, List.head?_cons, if_true, Numeral.digitsValue?_toDigits,
    Option.bind_some, List.tail_cons, h, Option.map_some]

theorem readSteps?_chars_entry (key : String) :
    readSteps? (chars [.field "default", .entry key]) = some [.field "default", .entry key] := by
  obtain ⟨hTake, hDrop⟩ := @takeWhile_inName "default" (by decide) [.entry key]
  have hKey : chars [.entry key] = '.' :: key.toList := by
    simp [chars, Step.text]
  have hChars : chars [.field "default", .entry key] =
      '.' :: ("default".toList ++ chars [.entry key]) := by
    simp [chars, Step.text]
  rw [hChars, readSteps?]
  simp only [hTake, hDrop]
  simp only [hKey, List.head?_cons, and_self, if_true, List.tail_cons, String.ofList_toList]

/-- The steps of a legible place are read back. -/
theorem Legible.readSteps?_chars {place : Place} (h : place.Legible) :
    readSteps? place.chars = some place := by
  induction h with
  | nil => simp [chars, readSteps?]
  | field hName hDefault _ ih =>
    exact readSteps?_chars_field hName (fun hKey => hDefault hKey.1) ih
  | item _ ih => exact readSteps?_chars_item _ ih
  | default =>
    exact readSteps?_chars_field (by decide) (by simp [chars]) (by simp [chars, readSteps?])
  | entry => exact readSteps?_chars_entry _

/-- A path that starts with a name. -/
theorem read?_text_field {name : String} (hName : name ∈ fieldNames) (steps : Place) :
    read? (text (.field name :: steps)) = readSteps? (chars (.field name :: steps)) := by
  have hLetter : ∀ name ∈ fieldNames, name.toList ≠ [] ∧
      name.toList.head? ≠ "(root)".toList.head? ∧ name.toList.head? ≠ some '[' := by
    decide +kernel
  obtain ⟨hNe, hRound, hSquare⟩ := hLetter name hName
  obtain ⟨c, cs, hCons⟩ := List.exists_cons_of_ne_nil hNe
  rw [hCons, List.head?_cons] at hRound hSquare
  have hText : (text (.field name :: steps)).toList = c :: (cs ++ steps.chars) := by
    simp [text, chars, String.toList_join, List.flatMap_map, hCons]
  have hRoot : text (.field name :: steps) ≠ "(root)" := by
    intro h
    rw [h] at hText
    exact hRound (by rw [hText, List.head?_cons])
  rw [read?, if_neg hRoot, hText, List.head?_cons, if_neg hSquare]
  simp [chars, Step.text, hCons]

/-- A path that starts with an index. -/
theorem read?_text_item (i : ℕ) (steps : Place) :
    read? (text (.item i :: steps)) = readSteps? (chars (.item i :: steps)) := by
  have hText : (text (.item i :: steps)).toList = chars (.item i :: steps) := by
    simp [text, chars, String.toList_join, List.flatMap_map]
  have hHead : (chars (.item i :: steps)).head? = some '[' := by
    simp [chars, Step.text]
  have hRoot : text (.item i :: steps) ≠ "(root)" := by
    intro h
    rw [← hText, h] at hHead
    exact absurd hHead (by decide)
  rw [read?, if_neg hRoot, hText, if_pos hHead]

/-- A legible place is what its text is read as. -/
theorem Legible.read?_text {place : Place} (h : place.Legible) : read? place.text = some place := by
  have hChars := h.readSteps?_chars
  cases h with
  | nil => rfl
  | field hName => rw [read?_text_field hName, hChars]
  | item => rw [read?_text_item, hChars]
  | default | entry => rw [read?_text_field (by decide), hChars]

end Place

/-! ## Legible places -/

namespace Place

/-- Whether a step goes to an item, or to a field behind which further steps of the schema stand. -/
def goesOn : Step → Bool
  | .field name => name ∈ fieldNames ∧ name ≠ "default"
  | .item _ => true
  | .entry _ => false

@[simp] theorem legible_cons_iff {step : Step} (h : goesOn step) {steps : Place} :
    Legible (step :: steps) ↔ Legible steps := by
  cases step with
  | field name =>
    obtain ⟨hName, hDefault⟩ := of_decide_eq_true h
    refine ⟨?_, .field hName hDefault⟩
    intro hLegible
    cases hLegible with
    | field _ _ hSteps => exact hSteps
    | default | entry => exact absurd rfl hDefault
  | item i =>
    refine ⟨?_, .item⟩
    rintro ⟨⟩
    assumption
  | entry key => cases h

@[simp] theorem legible_append_iff {place steps : Place} (hPlace : place.all goesOn) :
    Legible (place ++ steps) ↔ Legible steps := by
  induction place with
  | nil => exact Iff.rfl
  | cons step place ih =>
    rw [List.all_cons, Bool.and_eq_true] at hPlace
    rw [List.cons_append, legible_cons_iff hPlace.1, ih hPlace.2]

@[simp] theorem legible_of_goesOn {place : Place} (h : place.all goesOn) : place.Legible := by
  have hLegible := (legible_append_iff h).mpr .nil
  rwa [List.append_nil] at hLegible

attribute [simp] goesOn Legible.nil Legible.default Legible.entry

end Place

namespace Schema

/-- The rules look at legible places. -/
def AllLegible (rules : List Rule) : Prop := ∀ r ∈ rules, r.place.Legible

@[simp] theorem allLegible_nil : AllLegible [] := by
  intro r hr
  cases hr

@[simp] theorem allLegible_cons {rule : Rule} {rules : List Rule} :
    AllLegible (rule :: rules) ↔ rule.place.Legible ∧ AllLegible rules := List.forall_mem_cons

@[simp] theorem allLegible_append {rules rules' : List Rule} :
    AllLegible (rules ++ rules') ↔ AllLegible rules ∧ AllLegible rules' := List.forall_mem_append

theorem allLegible_optional {v : Value} {rules : List Rule} (h : AllLegible rules) :
    AllLegible (optionalRules v rules) := by
  unfold optionalRules
  split
  · exact allLegible_nil
  · exact h

theorem allLegible_listRules {base : Place} {fault : Fault} {rules : Place → Value → List Rule}
    (v : Value) (hBase : base.all Place.goesOn)
    (hRules : ∀ place v, place.all Place.goesOn → AllLegible (rules place v)) :
    AllLegible (listRules base fault rules v) := by
  refine allLegible_cons.mpr ⟨Place.legible_of_goesOn hBase, ?_⟩
  intro r hr
  obtain ⟨⟨w, i⟩, _, hMem⟩ := List.mem_flatMap.mp hr
  exact hRules _ w (by simp [hBase, Place.goesOn]) r hMem

/-! ## Decisions and the policy -/

section

variable {place : Place} (h : place.all Place.goesOn) (v : Value)

include h

theorem allLegible_toggleRules : AllLegible (toggleRules place v) := by
  simp [toggleRules, h, fieldNames]

theorem allLegible_decisionTagRules (tag : Option String) :
    AllLegible (decisionTagRules place v tag) := by
  unfold decisionTagRules
  split
  · refine allLegible_append.mpr ⟨by simp [h, fieldNames], ?_⟩
    exact allLegible_listRules _ (by simp [h, fieldNames])
      fun place v hPlace => allLegible_toggleRules hPlace v
  · simp [h]
  · exact allLegible_nil

theorem allLegible_decisionRules : AllLegible (decisionRules place v) := by
  unfold decisionRules
  refine allLegible_append.mpr ⟨by simp [h, fieldNames], ?_⟩
  exact allLegible_decisionTagRules h v _

end

theorem allLegible_policyRules (v : Value) : AllLegible (policyRules v) := by
  simp [policyRules, fieldNames]

/-! ## Parameters -/

namespace Scope

variable {s : Scope} (h : s.place.all Place.goesOn) (v : Value)

include h

theorem allLegible_itemsRules : AllLegible (s.itemsRules v) := by
  unfold itemsRules
  split
  · simp [h, fieldNames]
  · refine allLegible_append.mpr ⟨by simp [h, fieldNames], ?_⟩
    intro r hr
    obtain ⟨source, _, rfl⟩ := List.mem_map.mp hr
    cases source <;> simp [h, fieldNames, QuerySource.key]

theorem allLegible_defaultEntryRules (type : ValueType) (entry : Value × Value) :
    AllLegible (s.defaultEntryRules type entry) := by
  cases type <;> simp [defaultEntryRules, defaultValueRules, h]

theorem allLegible_typedDefaultRules (type? : Option ValueType) :
    AllLegible (s.typedDefaultRules v type?) := by
  cases type? with
  | none => exact allLegible_nil
  | some type =>
    intro r hr
    obtain ⟨entry, _, hMem⟩ := List.mem_flatMap.mp hr
    exact allLegible_defaultEntryRules h type entry r hMem

theorem allLegible_objectRules : AllLegible (s.objectRules v) := by
  simp only [objectRules, allLegible_append]
  refine ⟨⟨⟨⟨⟨allLegible_optional ?_, allLegible_optional ?_⟩, ?_⟩, allLegible_optional ?_⟩, ?_⟩,
    allLegible_typedDefaultRules h _ _⟩
  all_goals simp [h, fieldNames]

theorem allLegible_kindRules : AllLegible (s.kindRules v) := by
  have hItems : AllLegible (optionalRules (v.field "items") (s.itemsRules (v.field "items"))) :=
    allLegible_optional (allLegible_itemsRules h _)
  have hDefault : AllLegible (s.stringRules v "default") := allLegible_optional (by simp [h])
  unfold kindRules
  cases s.type with
  | string => exact allLegible_append.mpr ⟨hDefault, hItems⟩
  | setOfStrings => exact allLegible_append.mpr ⟨allLegible_optional (by simp [h]), hItems⟩
  | number => exact allLegible_optional (by simp [h])
  | setOfNumbers => exact allLegible_optional (by simp [h])
  | object => exact allLegible_objectRules h v

theorem allLegible_rules : AllLegible (s.rules v) := by
  simp only [rules, stringRules, boolRules, allLegible_append]
  refine ⟨⟨⟨allLegible_optional ?_, allLegible_optional ?_⟩, allLegible_optional ?_⟩,
    allLegible_kindRules h v⟩
  all_goals simp [h, fieldNames]

end Scope

theorem allLegible_parameterRules {place : Place} (h : place.all Place.goesOn) (v : Value) :
    AllLegible (parameterRules place v) := by
  unfold parameterRules
  refine allLegible_append.mpr ⟨by simp [h, fieldNames], ?_⟩
  unfold typedRules
  split
  · exact allLegible_nil
  · exact Scope.allLegible_rules h v

/-! ## Documents -/

/-- Every rule for a document looks at a legible place. -/
theorem allLegible_documentRules (document : Value) : AllLegible (documentRules document) := by
  simp only [documentRules, allLegible_append]
  refine ⟨⟨⟨by simp [headerRule], allLegible_optional ?_⟩, allLegible_optional ?_⟩,
    allLegible_optional ?_⟩
  · exact allLegible_listRules _ (by decide) fun place v hPlace => allLegible_decisionRules hPlace v
  · exact allLegible_policyRules _
  · exact allLegible_listRules _ (by decide)
      fun place v hPlace => allLegible_parameterRules hPlace v

end Schema

/-- The path of a violation is read as its place. -/
theorem Violation.read?_path {document : Value} {v : Violation}
    (h : Metadata.ofDocument document = .error v) : Place.read? v.path = some v.place := by
  obtain ⟨front, rule, back, hRules, _, _, rfl⟩ :=
    Schema.firstBroken?_eq_some_iff.mp (Schema.ofDocument_eq_error_iff.mp h)
  have hRule : rule ∈ Schema.documentRules document := by simp [hRules]
  exact (Schema.allLegible_documentRules document rule hRule).read?_text

end SnippetAudit
