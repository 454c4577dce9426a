import Mathlib.Data.List.Dedup
import SnippetAudit.Proofs.Number.Text
import SnippetAudit.Proofs.Schema.Conformance

/-!
# The keys of an object default

The default of an object parameter is kept under the texts of its keys. Numbers, booleans and strings
are keys alike, so two keys of a document can have one text: they differ in nothing but their tags, or
the one is a string that spells the other. Then the later entry takes the place of the earlier one.
There is no other way to lose an entry, since a number can be told from its text.

Results:
* `ObjectDefault.perm_iff`, `ObjectDefault.length_eq_iff`: a map has all entries iff no key stands twice.
* `eq_iff_clash`: the keys that have one text.
* `Schema.default_perm_iff`: when the default of an object parameter has all entries of the document.
-/

namespace SnippetAudit

open Yaml (Value Entries)

/-! ## Specification -/

/-- The string is the text of a boolean or of a number. -/
def Spells (s : String) : Value → Prop
  | .bool b => s = if b then "true" else "false"
  | .number n => s = String.ofList n.text
  | _ => False

/-- The keys have one text: they are the same but for tags, or both are not a number, or the one is a
    string that spells the other. -/
inductive Clash (k k' : Value) : Prop
  | same (h : k.untag = k'.untag)
  | notANumber {x y : Binary64} (hk : k.untag = .number (.float x)) (hx : x.isNaN = true)
    (hk' : k'.untag = .number (.float y)) (hy : y.isNaN = true)
  | spells {s : String} (hk : k.untag = .string s) (hk' : Spells s k'.untag)
  | spelled {s : String} (hk' : k'.untag = .string s) (hk : Spells s k.untag)

/-! ## Maps -/

namespace ObjectDefault

variable {typed d : List (String × DefaultValue)}

/-- Where no key stands twice the entries are those that are found. -/
theorem mem_iff_lookup_eq (h : (typed.map Prod.fst).Nodup) {e : String × DefaultValue} :
    e ∈ typed ↔ typed.lookup e.1 = some e.2 := by
  induction typed with
  | nil => simp
  | cons first typed ih =>
    obtain ⟨hFirst, hRest⟩ := List.nodup_cons.mp h
    rw [lookup_cons, List.mem_cons]
    by_cases hKey : e.1 = first.1
    · rw [if_pos hKey, Option.some.injEq]
      have hNot : e ∉ typed := fun hMem => hFirst (hKey ▸ List.mem_map_of_mem hMem)
      rw [or_iff_left hNot, Prod.ext_iff, and_iff_right hKey]
      exact eq_comm
    · rw [if_neg hKey, ← ih hRest, or_iff_right fun hSame => hKey (congrArg Prod.fst hSame)]

theorem nodup_keys_of_ascending (h : Ascending d) : (d.map Prod.fst).Nodup := by
  rw [List.Nodup, List.pairwise_map]
  exact h.imp fun hLt => String.ne_of_lt hLt

theorem mem_keys_iff {key : String} : key ∈ typed.map Prod.fst ↔ typed.lookup key ≠ none := by
  induction typed with
  | nil => simp
  | cons first typed ih =>
    rw [List.map_cons, List.mem_cons, lookup_cons, ih]
    by_cases hKey : key = first.1
    · simp [hKey]
    · rw [if_neg hKey, or_iff_right hKey]

/-- A map has all entries that it is made of iff no key stands twice in them. -/
theorem perm_iff (h : CollectsTo typed d) : d.Perm typed ↔ (typed.map Prod.fst).Nodup := by
  have hKeys : (d.map Prod.fst).Nodup := nodup_keys_of_ascending h.ascending
  constructor
  · intro hPerm
    exact (hPerm.map Prod.fst).nodup_iff.mp hKeys
  · intro hNodup
    rw [List.perm_ext_iff_of_nodup hKeys.of_map hNodup.of_map]
    intro e
    have hReverse : (typed.reverse.map Prod.fst).Nodup := by
      rw [List.map_reverse, List.nodup_reverse]
      exact hNodup
    rw [mem_iff_lookup_eq hKeys, h.lookup_eq, ← mem_iff_lookup_eq hReverse, List.mem_reverse]

/-- A map has as many entries as it is made of iff no key stands twice in them. -/
theorem length_eq_iff (h : CollectsTo typed d) :
    d.length = typed.length ↔ (typed.map Prod.fst).Nodup := by
  have hKeys : (d.map Prod.fst).Perm (typed.map Prod.fst).dedup := by
    rw [List.perm_ext_iff_of_nodup (nodup_keys_of_ascending h.ascending) (List.nodup_dedup _)]
    intro key
    rw [List.mem_dedup, mem_keys_iff, h.lookup_eq, ← mem_keys_iff, List.map_reverse, List.mem_reverse]
  have hLength := hKeys.length_eq
  rw [List.length_map] at hLength
  rw [hLength, ← List.dedup_eq_self]
  constructor
  · intro hSame
    exact (List.dedup_sublist _).eq_of_length (by rw [hSame, List.length_map])
  · intro hSelf
    rw [hSelf, List.length_map]

end ObjectDefault

/-! ## Texts of keys -/

/-- The text of a number is no word for a boolean. -/
theorem ofList_text_ne_bool (n : Yaml.Number) (b : Bool) :
    String.ofList n.text ≠ if b then "true" else "false" := by
  intro h
  have hText : n.text = (if b then "true" else "false").toList := by rw [← h, String.toList_ofList]
  cases b with
  | true =>
    have hT : 't' ∉ n.text := n.not_mem_text (by decide) (by decide)
    exact hT (hText ▸ by decide)
  | false =>
    have hL : 'l' ∉ n.text := n.not_mem_text (by decide) (by decide)
    exact hL (hText ▸ by decide)

/-- The text of a key is its string, or what spells it. -/
theorem keyText?_eq_some_iff {k : Value} {s : String} :
    k.keyText? = some s ↔ k.untag = .string s ∨ Spells s k.untag := by
  unfold Value.keyText? Spells
  cases k.untag with
  | string t => simp
  | number n => simp [eq_comm]
  | bool b => simp [eq_comm]
  | null => simp
  | sequence items => simp
  | mapping entries => simp
  | tagged tag v => simp

/-- One string spells no two values, unless neither is a number. -/
theorem eq_of_spells {s : String} {v w : Value} (hv : Spells s v) (hw : Spells s w) :
    v = w ∨ ∃ x y, v = .number (.float x) ∧ w = .number (.float y) ∧
      x.isNaN = true ∧ y.isNaN = true := by
  unfold Spells at hv hw
  split at hv
  · rename_i b
    split at hw
    · rename_i c
      left
      cases b <;> cases c <;> first | rfl | exact absurd (hv.symm.trans hw) (by decide)
    · exact absurd (hw.symm.trans hv) (ofList_text_ne_bool _ _)
    · exact hw.elim
  · rename_i m
    split at hw
    · exact absurd (hv.symm.trans hw) (ofList_text_ne_bool _ _)
    · rename_i n
      have hText : m.text = n.text := String.ofList_inj.mp (hv.symm.trans hw)
      rcases Yaml.Number.text_eq_iff.mp hText with rfl | ⟨x, y, rfl, rfl, hx, hy⟩
      · exact .inl rfl
      · exact .inr ⟨x, y, rfl, rfl, hx, hy⟩
    · exact hw.elim
  · exact hv.elim

/-- Two keys have one text iff they clash. -/
theorem eq_iff_clash {k k' : Value} {s s' : String} (h : k.keyText? = some s)
    (h' : k'.keyText? = some s') : s = s' ↔ Clash k k' := by
  constructor
  · rintro rfl
    rcases keyText?_eq_some_iff.mp h with hk | hk <;> rcases keyText?_eq_some_iff.mp h' with hk' | hk'
    · exact .same (hk.trans hk'.symm)
    · exact .spells hk hk'
    · exact .spelled hk' hk
    · rcases eq_of_spells hk hk' with hSame | ⟨x, y, hx, hy, hxNaN, hyNaN⟩
      · exact .same hSame
      · exact .notANumber hx hxNaN hy hyNaN
  · intro hClash
    have hText : k.keyText? = k'.keyText? := by
      cases hClash with
      | same hSame => rw [← Value.keyText?_untag, hSame, Value.keyText?_untag]
      | notANumber hk hx hk' hy =>
        rw [← Value.keyText?_untag k, ← Value.keyText?_untag k', hk, hk', Value.keyText?,
          Value.keyText?]
        simp only [Value.untag, Yaml.Number.text, Binary64.text_of_isNaN hx, Binary64.text_of_isNaN hy]
      | spells hk hk' =>
        rw [keyText?_eq_some_iff.mpr (.inl hk), keyText?_eq_some_iff.mpr (.inr hk')]
      | spelled hk' hk =>
        rw [keyText?_eq_some_iff.mpr (.inr hk), keyText?_eq_some_iff.mpr (.inl hk')]
    rw [h, h'] at hText
    exact Option.some.inj hText

/-! ## Defaults -/

namespace Schema

/-- The texts of the keys of a default are different iff no two of the keys clash. -/
theorem nodup_keys_iff {type : ValueType} {e : Entries} {typed : List (String × DefaultValue)}
    (h : List.Forall₂ (DefaultEntryIs type) e typed) :
    (typed.map Prod.fst).Nodup ↔ e.Pairwise fun a b => ¬ Clash a.1 b.1 := by
  rw [List.Nodup, List.pairwise_map]
  constructor
  · intro hTexts
    apply pairwise_of_forall₂ h.flip hTexts
    intro t _ t' _ a a' ha ha' hNe hClash
    exact hNe ((eq_iff_clash ha.1 ha'.1).mpr hClash)
  · intro hKeys
    apply pairwise_of_forall₂ h hKeys
    intro a _ a' _ t t' ha ha' hNot hSame
    exact hNot ((eq_iff_clash ha.1 ha'.1).mp hSame)

/-- The default of an object parameter that is accepted: its entries are the entries of the document with
    their keys as texts and their values as the descriptor asks for, and of those with one text it holds
    the last. It holds all of them, and as many as the document has, iff no two keys of the document
    clash. -/
theorem default_perm_iff {place : Place} {v : Value} {p : Parameter} {d : ObjectDefault}
    {keyPlaceholder valuePlaceholder : Option String} {type : ValueType}
    (h : checkParameter place v = .ok p)
    (hKind : p.kind = .object (some d) keyPlaceholder type valuePlaceholder) :
    ∃ fields entries typed, MappingIs v fields ∧ FieldIs MappingIs fields "default" entries ∧
      List.Forall₂ (DefaultEntryIs type) entries typed ∧
      (∀ key, d.lookup key = typed.reverse.lookup key) ∧
      (d.Perm typed ↔ entries.Pairwise fun a b => ¬ Clash a.1 b.1) ∧
      (d.length = entries.length ↔ entries.Pairwise fun a b => ¬ Clash a.1 b.1) := by
  cases checkParameter_eq_ok_iff.mp h with
  | mapping hv hName hLabel hRequired hPlaceholder hParameter =>
    rw [hKind] at hParameter
    cases hParameter with
    | object hType hKey hValue hValuePlaceholder hValueType hDefault =>
      cases hDefault with
      | given hw hNull hd =>
        cases hd with
        | mapping hEntries hTyped hd =>
          refine ⟨_, _, _, hv, ⟨_, hw, hEntries⟩, hTyped, hd.lookup_eq, ?_, ?_⟩
          · rw [ObjectDefault.perm_iff hd, nodup_keys_iff hTyped]
          · rw [hTyped.length_eq, ObjectDefault.length_eq_iff hd, nodup_keys_iff hTyped]

/-- The keys are a number and the string that spells it. -/
def crossedEntries : Entries :=
  [(.number (.whole 1), .string "a"), (.string "1", .string "b")]

/-- An object parameter with `crossedEntries` as its default. -/
def crossedParameter : Value :=
  .mapping [(.string "type", .string "object"), (.string "name", .string "p"),
    (.string "value", .mapping [(.string "type", .string "string")]),
    (.string "default", .mapping crossedEntries)]

theorem checkParameter_crossed :
    checkParameter [] crossedParameter = .ok ⟨"p", none, none, none,
      .object (some [("1", .string "b")]) none .string none⟩ := by rfl

/-- Of the entries of `crossedParameter` the first is lost. -/
theorem default_perm_iff_crossed :
    ∃ fields entries typed, MappingIs crossedParameter fields ∧
      FieldIs MappingIs fields "default" entries ∧
      List.Forall₂ (DefaultEntryIs .string) entries typed ∧
      (∀ key, List.lookup key [("1", .string "b")] = typed.reverse.lookup key) ∧
      (List.Perm [("1", .string "b")] typed ↔ entries.Pairwise fun a b => ¬ Clash a.1 b.1) ∧
      ([("1", DefaultValue.string "b")].length = entries.length ↔
        entries.Pairwise fun a b => ¬ Clash a.1 b.1) :=
  default_perm_iff checkParameter_crossed rfl

/-- Not every object parameter that is accepted has all entries of its default. -/
theorem not_forall_default_perm :
    ¬ ∀ (place : Place) (v : Value) (p : Parameter) (d : ObjectDefault)
        (keyPlaceholder valuePlaceholder : Option String) (type : ValueType),
      checkParameter place v = .ok p →
      p.kind = .object (some d) keyPlaceholder type valuePlaceholder →
      ∃ fields entries typed, MappingIs v fields ∧ FieldIs MappingIs fields "default" entries ∧
        List.Forall₂ (DefaultEntryIs type) entries typed ∧ d.Perm typed := by
  intro h
  obtain ⟨fields, entries, typed, hFields, ⟨w, hw, hEntries⟩, hTyped, hPerm⟩ :=
    h _ _ _ _ _ _ _ checkParameter_crossed rfl
  cases hFields
  cases hw
  cases hEntries
  have hLength := hPerm.length_eq
  rw [← hTyped.length_eq] at hLength
  exact absurd hLength (by decide)

end Schema

end SnippetAudit
