import Mathlib.Logic.Relation
import SnippetAudit.Proofs.Schema.Shapes

/-!
# Edits that no check sees

In a mapping that is read by field names, three things do not count: entries under keys that are not
read there, entries that are null, and the order of the entries. Such a mapping may stand anywhere
in a document, and any number of such edits leaves the metadata, or the violation, as it is.

The entries in the default of an object parameter are read one by one with their keys, so that
mapping is none of these.

Results:
* `get?_insert_of_ne`, `get?_eq_of_perm`: how a field is looked up in edited entries.
* `EntryEdit.sameField`: a field that is read is the same after an edit, or null before and after.
* `Edit.alike`: an edit leaves a document alike in its shape.
* `ofDocument_eq_of_edits`: what any number of edits does to the check.
-/

namespace SnippetAudit

open Yaml (Value Entries)

namespace Schema

/-! ## Specification -/

/-- No key stands twice, as in every mapping that is read from a text. -/
def DistinctKeys (entries : Entries) : Prop :=
  entries.Pairwise fun e e' => e.1.same e'.1 = false

/-- An entry that does not count beside the others, where `fields` says what is read. -/
inductive Superfluous (fields : String → Shape) (others : Entries) : Value × Value → Prop
  /-- Its key is not read. It may be no string at all. -/
  | unread {k v : Value} (h : ∀ key, k = .string key → fields key = .unread) :
    Superfluous fields others (k, v)
  /-- Its key is new and its value is null, under whatever tags. -/
  | null {k v : Value} (hNew : ∀ e ∈ others, e.1.same k = false) (hNull : v.isNull = true) :
    Superfluous fields others (k, v)

/-- One edit of the entries of a mapping, where `fields` says what is read. -/
inductive EntryEdit (fields : String → Shape) : Entries → Entries → Prop
  | add {front back : Entries} {e : Value × Value} (h : Superfluous fields (front ++ back) e) :
    EntryEdit fields (front ++ back) (front ++ e :: back)
  | remove {front back : Entries} {e : Value × Value} (h : Superfluous fields (front ++ back) e) :
    EntryEdit fields (front ++ e :: back) (front ++ back)
  | reorder {es es' : Entries} (hKeys : DistinctKeys es) (h : es.Perm es') :
    EntryEdit fields es es'

/-- One edit at some mapping in a value of which the shape is read: at the value itself, at a field
    that is read, or at an item that is read. -/
inductive Edit : Shape → Value → Value → Prop
  | entries {item : Shape} {fields : Option String → String → Shape} {es es' : Entries}
    (h : EntryEdit (fields (Value.mapping es).typeTag?) es es') :
    Edit (.node item fields) (.mapping es) (.mapping es')
  | field {item : Shape} {fields : Option String → String → Shape} {front back : Entries}
    {key : String} {v v' : Value}
    (h : Edit (fields (Value.mapping (front ++ (.string key, v) :: back)).typeTag? key) v v') :
    Edit (.node item fields) (.mapping (front ++ (.string key, v) :: back))
      (.mapping (front ++ (.string key, v') :: back))
  | item {item : Shape} {fields : Option String → String → Shape} {front back : List Value}
    {v v' : Value} (h : Edit item v v') :
    Edit (.node item fields) (.sequence (front ++ v :: back)) (.sequence (front ++ v' :: back))
  | tagged {s : Shape} {tag : String} {v v' : Value} (h : Edit s v v') :
    Edit s (.tagged tag v) (.tagged tag v')

/-! ## Looking up fields -/

/-- Whether an entry stands under the untagged string key `key`. -/
def standsUnder (key : String) (e : Value × Value) : Bool := e.1.same (.string key)

theorem standsUnder_iff {key : String} {e : Value × Value} :
    standsUnder key e = true ↔ e.1 = .string key := by
  unfold standsUnder
  cases e.1 <;> simp [Value.same]

/-- A field is the value of the first entry under its key. -/
theorem get?_eq_find? (es : Entries) (key : String) :
    es.get? key = (es.find? (standsUnder key)).map Prod.snd := by
  induction es with
  | nil => rfl
  | cons e es ih =>
    obtain ⟨k, v⟩ := e
    by_cases hKey : k = .string key
    · rw [hKey, Entries.get?_cons_self, List.find?_cons_of_pos (standsUnder_iff.mpr rfl),
        Option.map_some]
    · rw [Entries.get?_cons_of_ne hKey, ih, List.find?_cons_of_neg (mt standsUnder_iff.mp hKey)]

theorem get?_insert_of_ne {k : Value} {key : String} (h : k ≠ .string key) (v : Value)
    (front back : Entries) :
    Entries.get? (front ++ (k, v) :: back) key = Entries.get? (front ++ back) key := by
  rw [get?_eq_find?, get?_eq_find?, List.find?_append, List.find?_append,
    List.find?_cons_of_neg (mt standsUnder_iff.mp h)]

theorem get?_eq_none_of_forall {es : Entries} {key : String}
    (h : ∀ e ∈ es, e.1 ≠ .string key) : es.get? key = none := by
  have hNone : es.find? (standsUnder key) = none :=
    List.find?_eq_none.mpr fun e he => mt standsUnder_iff.mp (h e he)
  rw [get?_eq_find?, hNone, Option.map_none]

/-- Of entries under one key the first counts, so one that nothing with its key stands before. -/
theorem get?_insert_self {key : String} {front : Entries} (h : ∀ e ∈ front, e.1 ≠ .string key)
    (v : Value) (back : Entries) :
    Entries.get? (front ++ (.string key, v) :: back) key = some v := by
  have hNone : front.find? (standsUnder key) = none :=
    List.find?_eq_none.mpr fun e he => mt standsUnder_iff.mp (h e he)
  rw [get?_eq_find?, List.find?_append, hNone, Option.none_or,
    List.find?_cons_of_pos (standsUnder_iff.mpr rfl), Option.map_some]

/-- Where no key stands twice, at most one entry stands under a key. -/
theorem filter_standsUnder_cases {es : Entries} (hKeys : DistinctKeys es) (key : String) :
    es.filter (standsUnder key) = [] ∨ ∃ e, es.filter (standsUnder key) = [e] := by
  have hPairwise := hKeys.sublist (List.filter_sublist (p := standsUnder key))
  have hUnder : ∀ e ∈ es.filter (standsUnder key), e.1 = .string key :=
    fun e he => standsUnder_iff.mp (List.mem_filter.mp he).2
  match hFilter : es.filter (standsUnder key) with
  | [] => exact .inl rfl
  | [e] => exact .inr ⟨e, rfl⟩
  | e :: e' :: others =>
    rw [hFilter] at hPairwise hUnder
    have hSame : e.1.same e'.1 = false := List.rel_of_pairwise_cons hPairwise (by simp)
    rw [hUnder e (by simp), hUnder e' (by simp)] at hSame
    simp [Value.same] at hSame

/-- The order of entries does not count where no key stands twice. -/
theorem get?_eq_of_perm {es es' : Entries} (hKeys : DistinctKeys es) (h : es.Perm es')
    (key : String) : es.get? key = es'.get? key := by
  have hPerm := h.filter (standsUnder key)
  have hFilter : es.filter (standsUnder key) = es'.filter (standsUnder key) := by
    rcases filter_standsUnder_cases hKeys key with hNone | ⟨e, hOne⟩
    · rw [hNone] at hPerm ⊢
      exact (List.nil_perm.mp hPerm).symm
    · rw [hOne] at hPerm ⊢
      exact (List.singleton_perm.mp hPerm)
  rw [get?_eq_find?, get?_eq_find?, ← List.head?_filter, ← List.head?_filter, hFilter]

/-! ## Fields after an edit -/

/-- Two values of a field that no check tells apart: they are the same, or both are null. -/
def SameField (x y : Value) : Prop := x = y ∨ x.isNull = true ∧ y.isNull = true

theorem SameField.symm {x y : Value} (h : SameField x y) : SameField y x :=
  h.imp Eq.symm And.symm

theorem SameField.alike {x y : Value} (h : SameField x y) (s : Shape) : s.Alike x y := by
  rcases h with rfl | ⟨hx, hy⟩
  · exact s.alike_refl x
  · exact s.alike_of_isNull hx hy

theorem field_mapping (es : Entries) (key : String) :
    (Value.mapping es).field key = (es.get? key).getD .null := rfl

theorem Superfluous.sameField {fields : String → Shape} {front back : Entries} {e : Value × Value}
    (h : Superfluous fields (front ++ back) e) {key : String} (hRead : fields key ≠ .unread) :
    SameField ((Value.mapping (front ++ back)).field key)
      ((Value.mapping (front ++ e :: back)).field key) := by
  obtain ⟨k, v⟩ := e
  rw [field_mapping, field_mapping]
  by_cases hKey : k = .string key
  · subst hKey
    cases h with
    | unread h => exact absurd (h key rfl) hRead
    | null hNew hNull =>
      have hNe : ∀ e ∈ front ++ back, e.1 ≠ .string key := by
        intro e he hKey
        have hSame := hNew e he
        rw [hKey] at hSame
        simp [Value.same] at hSame
      rw [get?_eq_none_of_forall hNe,
        get?_insert_self (fun e he => hNe e (List.mem_append_left _ he))]
      exact .inr ⟨rfl, hNull⟩
  · rw [get?_insert_of_ne hKey]
    exact .inl rfl

/-- A field that is read is the same after an edit, or null before and after. -/
theorem EntryEdit.sameField {fields : String → Shape} {es es' : Entries}
    (h : EntryEdit fields es es') {key : String} (hRead : fields key ≠ .unread) :
    SameField ((Value.mapping es).field key) ((Value.mapping es').field key) := by
  cases h with
  | add h => exact h.sameField hRead
  | remove h => exact (h.sameField hRead).symm
  | reorder hKeys h =>
    rw [field_mapping, field_mapping, get?_eq_of_perm hKeys h]
    exact .inl rfl

/-- Replacing the value of an entry changes no field, or the field of its key from the old value to
    the new one. -/
theorem field_replace_cases (front back : Entries) (key : String) (v v' : Value) (key' : String) :
    (Value.mapping (front ++ (.string key, v) :: back)).field key' =
        (Value.mapping (front ++ (.string key, v') :: back)).field key' ∨
      key' = key ∧ (Value.mapping (front ++ (.string key, v) :: back)).field key' = v ∧
        (Value.mapping (front ++ (.string key, v') :: back)).field key' = v' := by
  by_cases hKey : key' = key
  · subst hKey
    rw [field_mapping, field_mapping, get?_eq_find?, get?_eq_find?, List.find?_append,
      List.find?_append]
    cases front.find? (standsUnder key') with
    | some e => exact .inl rfl
    | none =>
      rw [List.find?_cons_of_pos (standsUnder_iff.mpr rfl),
        List.find?_cons_of_pos (standsUnder_iff.mpr rfl)]
      exact .inr ⟨rfl, rfl, rfl⟩
  · have hNe : Value.string key ≠ .string key' := fun h => hKey (Value.string.inj h).symm
    rw [field_mapping, field_mapping, get?_insert_of_ne hNe, get?_insert_of_ne hNe]
    exact .inl rfl

/-! ## Documents -/

theorem alike_mapping {item : Shape} {fields : Option String → String → Shape} {es es' : Entries}
    (h : ∀ key, (fields (Value.mapping es).typeTag? key).Alike ((Value.mapping es).field key)
      ((Value.mapping es').field key)) :
    (Shape.node item fields).Alike (.mapping es) (.mapping es') :=
  ⟨rfl, .nil, h⟩

theorem Edit.alike {s : Shape} {v v' : Value} (h : Edit s v v') : s.Alike v v' := by
  induction h with
  | @entries item fields es es' h =>
    refine alike_mapping ?_
    intro key
    by_cases hRead : fields (Value.mapping es).typeTag? key = .unread
    · rw [hRead]
      trivial
    · exact (h.sameField hRead).alike _
  | @field item fields front back key v v' h ih =>
    refine alike_mapping ?_
    intro key'
    rcases field_replace_cases front back key v v' key' with hSame | ⟨rfl, hv, hv'⟩
    · rw [hSame]
      exact Shape.alike_refl _ _
    · rw [hv, hv']
      exact ih
  | @item item fields front back v v' h ih =>
    refine ⟨rfl, ?_, fun key => Shape.alike_refl _ _⟩
    have hSame (vs : List Value) : List.Forall₂ item.Alike vs vs :=
      List.forall₂_same.mpr fun w _ => item.alike_refl w
    exact forall₂_append_cons_left_iff.mpr ⟨front, v', back, hSame front, ih, hSame back, rfl⟩
  | tagged h ih => exact ih.tagged _

end Schema

open Schema in
/-- However many such edits are made to a document, wherever they are made, its metadata or its
    violation is the same. -/
theorem Metadata.ofDocument_eq_of_edits {document document' : Value}
    (h : Relation.ReflTransGen (Edit .document) document document') :
    Metadata.ofDocument document' = Metadata.ofDocument document := by
  induction h with
  | refl => rfl
  | tail _ hEdit ih => rw [← ih, ofDocument_congr hEdit.alike]

namespace Schema

/-- The entries of a document with one parameter. -/
def withParameter (parameter : Entries) : Entries :=
  [(.string "title", .string "t"), (.string "description", .string "d"),
    (.string "schema", .tagged "s" (.mapping
      [(.string "parameters", .sequence [.mapping parameter])]))]

/-- An edit of the parameter is one of the document. -/
theorem edit_withParameter {parameter parameter' : Entries}
    (h : Edit .parameter (.mapping parameter) (.mapping parameter')) :
    Edit .document (.mapping (withParameter parameter)) (.mapping (withParameter parameter')) := by
  refine @Edit.field _ _ [(.string "title", .string "t"), (.string "description", .string "d")] []
    "schema" _ _ (.tagged ?_)
  refine @Edit.field _ _ [] [] "parameters" _ _ ?_
  exact @Edit.item _ _ [] [] _ _ h

/-- An object parameter whose values have no type that is known. -/
def untyped : Entries :=
  [(.string "type", .string "object"), (.string "name", .string "n"),
    (.string "value", .mapping [(.string "type", .string "set")])]

/-- The entries of `untyped` in another order, with a null in the description of the values. -/
def shuffled : Entries :=
  [(.string "value", .mapping
      [(.string "placeholder", .tagged "p" .null), (.string "type", .string "set")]),
    (.string "name", .string "n"), (.string "type", .string "object")]

/-- Entries that are not read of a document: one under a key with a tag, and one that is null. -/
def idle : Entries :=
  [(.tagged "t" (.string "title"), .string "u"), (.string "policy", .null)]

/-- Four edits: in the description of the values, in the parameter, and two in the document. -/
theorem ofDocument_withParameter_shuffled :
    Relation.ReflTransGen (Edit .document) (.mapping (withParameter untyped))
      (.mapping (idle ++ withParameter shuffled)) ∧
    Metadata.ofDocument (.mapping (idle ++ withParameter shuffled)) =
      Metadata.ofDocument (.mapping (withParameter untyped)) := by
  have hNull : Edit .parameter (.mapping untyped) (.mapping shuffled.reverse) := by
    refine @Edit.field _ _ [(.string "type", .string "object"), (.string "name", .string "n")] []
      "value" _ _ (.entries (@EntryEdit.add _ [] [(.string "type", .string "set")] _ ?_))
    exact .null (by simp [Value.same]) rfl
  have hOrder : Edit .parameter (.mapping shuffled.reverse) (.mapping shuffled) :=
    .entries (.reorder (by simp [DistinctKeys, shuffled, Value.same]) shuffled.reverse_perm)
  have hPolicy : Edit .document (.mapping (withParameter shuffled))
      (.mapping ((.string "policy", .null) :: withParameter shuffled)) :=
    .entries (@EntryEdit.add _ [] _ _ (.null (by simp [Value.same]) rfl))
  have hKey : Edit .document (.mapping ((.string "policy", .null) :: withParameter shuffled))
      (.mapping (idle ++ withParameter shuffled)) :=
    .entries (@EntryEdit.add _ [] _ _ (.unread (by simp)))
  have hEdits : Relation.ReflTransGen (Edit .document) (.mapping (withParameter untyped))
      (.mapping (idle ++ withParameter shuffled)) :=
    .tail (.tail (.tail (.single (edit_withParameter hNull)) (edit_withParameter hOrder)) hPolicy)
      hKey
  exact ⟨hEdits, Metadata.ofDocument_eq_of_edits hEdits⟩

end Schema

end SnippetAudit
