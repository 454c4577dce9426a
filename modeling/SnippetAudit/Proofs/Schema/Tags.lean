import SnippetAudit.Proofs.Schema.Shapes

/-!
# Tags of values

Tags on values do not count, at whatever depth they stand and however many stand on one another: a
document is checked as the document without them is. Keys are left alone, since a tag makes
another key of them.

Results:
* `stripItems_eq_map`, `stripEntries_eq_map`: tags are taken away value by value.
* `alike_stripTags`: a value is alike in every shape to what is left without tags.
* `ofDocument_stripTags`: the check of a document without its tags.
-/

namespace SnippetAudit

open Yaml (Value Entries)

namespace Yaml

/-! ## Specification -/

mutual

/-- The value without the tags on it and on the values in it. Keys stay as they are. -/
def Value.stripTags : Value → Value
  | .tagged _ v => v.stripTags
  | .sequence items => .sequence (stripItems items)
  | .mapping entries => .mapping (stripEntries entries)
  | .null => .null
  | .bool b => .bool b
  | .number n => .number n
  | .string s => .string s

/-- Items without tags. -/
def stripItems : List Value → List Value
  | [] => []
  | v :: items => v.stripTags :: stripItems items

/-- Entries whose values are without tags. -/
def stripEntries : Entries → Entries
  | [] => []
  | (key, v) :: entries => (key, v.stripTags) :: stripEntries entries

end

/-- No tag stands on the value or on a value in it. -/
inductive Value.TagFree : Value → Prop
  | null : TagFree .null
  | bool (b : Bool) : TagFree (.bool b)
  | number (n : Number) : TagFree (.number n)
  | string (s : String) : TagFree (.string s)
  | sequence {items : List Value} (h : ∀ v ∈ items, TagFree v) : TagFree (.sequence items)
  | mapping {entries : Entries} (h : ∀ e ∈ entries, TagFree e.2) : TagFree (.mapping entries)

/-! ## What is left without tags -/

theorem stripItems_eq_map (items : List Value) : stripItems items = items.map Value.stripTags := by
  induction items with
  | nil => rfl
  | cons v items ih => rw [stripItems, ih, List.map_cons]

theorem stripEntries_eq_map (entries : Entries) :
    stripEntries entries = entries.map fun e => (e.1, e.2.stripTags) := by
  induction entries with
  | nil => rfl
  | cons e entries ih => rw [stripEntries, ih, List.map_cons]

mutual

theorem Value.tagFree_stripTags : ∀ v : Value, v.stripTags.TagFree
  | .tagged _ v => by
    rw [Value.stripTags]
    exact v.tagFree_stripTags
  | .sequence items => by
    rw [Value.stripTags]
    exact .sequence (tagFree_of_mem_stripItems items)
  | .mapping entries => by
    rw [Value.stripTags]
    exact .mapping (tagFree_of_mem_stripEntries entries)
  | .null => .null
  | .bool b => .bool b
  | .number n => .number n
  | .string s => .string s

theorem tagFree_of_mem_stripItems : ∀ (items : List Value), ∀ v ∈ stripItems items, v.TagFree
  | [], _, h => by cases h
  | w :: items, v, h => by
    rcases List.mem_cons.mp h with rfl | h
    · exact w.tagFree_stripTags
    · exact tagFree_of_mem_stripItems items v h

theorem tagFree_of_mem_stripEntries :
    ∀ (entries : Entries), ∀ e ∈ stripEntries entries, e.2.TagFree
  | [], _, h => by cases h
  | (_, w) :: entries, e, h => by
    rcases List.mem_cons.mp h with rfl | h
    · exact w.tagFree_stripTags
    · exact tagFree_of_mem_stripEntries entries e h

end

namespace Value

theorem untag_stripTags : ∀ v : Value, v.stripTags.untag =
    match v.untag with
    | .sequence items => .sequence (items.map stripTags)
    | .mapping entries => .mapping (entries.map fun e => (e.1, e.2.stripTags))
    | w => w
  | .tagged _ v => by rw [stripTags, untag_tagged, untag_stripTags v]
  | .sequence items => by simp [stripTags, stripItems_eq_map, untag]
  | .mapping entries => by simp [stripTags, stripEntries_eq_map, untag]
  | .null | .bool _ | .number _ | .string _ => by simp [stripTags, untag]

/-- A value looks the same without its tags. -/
theorem ofValue_stripTags (v : Value) : Found.ofValue v.stripTags = Found.ofValue v := by
  unfold Found.ofValue
  rw [untag_stripTags]
  cases v.untag <;> rfl

theorem items_stripTags (v : Value) : v.stripTags.items = v.items.map stripTags := by
  unfold items asSequence?
  rw [untag_stripTags]
  cases v.untag <;> rfl

theorem entries_stripTags (v : Value) :
    v.stripTags.entries = v.entries.map fun e => (e.1, e.2.stripTags) := by
  unfold entries asMapping?
  rw [untag_stripTags]
  cases v.untag <;> rfl

end Value

theorem Entries.get?_map_stripTags (entries : Entries) (key : String) :
    Entries.get? (entries.map fun e => (e.1, e.2.stripTags)) key =
      (entries.get? key).map Value.stripTags := by
  induction entries with
  | nil => rfl
  | cons e entries ih =>
    obtain ⟨k, v⟩ := e
    rw [List.map_cons]
    by_cases hKey : k = .string key
    · rw [hKey, Entries.get?_cons_self, Entries.get?_cons_self, Option.map_some]
    · rw [Entries.get?_cons_of_ne hKey, Entries.get?_cons_of_ne hKey, ih]

theorem Value.field_stripTags (v : Value) (key : String) :
    v.stripTags.field key = (v.field key).stripTags := by
  unfold Value.field
  rw [Value.entries_stripTags, Entries.get?_map_stripTags]
  cases v.entries.get? key <;> simp [Value.stripTags]

end Yaml

namespace Schema

/-- A value is alike in every shape to what is left without tags. -/
theorem Shape.alike_stripTags : ∀ (s : Shape) (v : Value), s.Alike v.stripTags v
  | .unread, _ => trivial
  | .node item field, v => by
    refine ⟨v.ofValue_stripTags, ?_, ?_⟩
    · rw [v.items_stripTags, List.forall₂_map_left_iff, List.forall₂_same]
      exact fun w _ => item.alike_stripTags w
    · intro key
      rw [v.field_stripTags]
      exact (field _ key).alike_stripTags _
  | .entries value, v => by
    refine ⟨v.ofValue_stripTags, ?_⟩
    rw [v.entries_stripTags, List.forall₂_map_left_iff, List.forall₂_same]
    exact fun e _ => ⟨rfl, value.alike_stripTags e.2⟩

end Schema

/-- Without its tags a document has the same metadata, or the same violation. -/
theorem Metadata.ofDocument_stripTags (document : Value) :
    document.stripTags.TagFree ∧
      Metadata.ofDocument document.stripTags = Metadata.ofDocument document :=
  ⟨document.tagFree_stripTags, Schema.ofDocument_congr (Schema.Shape.document.alike_stripTags document)⟩

end SnippetAudit
