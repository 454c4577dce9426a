import Mathlib.Data.List.Pairwise
import Mathlib.Tactic.ByContra
import Mathlib.Tactic.SplitIfs
import SnippetAudit.Snippet.Metadata

/-!
# Object defaults as maps

The default of an object parameter is a list of keys and values that is kept in ascending
order. `CollectsTo typed d` says, without the order of insertion, which map a list of
entries stands for: the last entry under a key counts.

Results:
* `lookup_insert`, `ascending_insert`: insertion is the update of a map.
* `collectsTo_iff`: inserting entries one by one gives the map they stand for, and there is
  only one such map.
-/

namespace SnippetAudit.ObjectDefault

/-! ## Specification -/

/-- The keys ascend, so no key stands twice. -/
def Ascending (d : ObjectDefault) : Prop := d.Pairwise fun a b => a.1 < b.1

/-- `d` is the map of some entries: one for each key that occurs, by ascending keys, with the
    value of the last entry under that key. -/
structure CollectsTo (typed : List (String × DefaultValue)) (d : ObjectDefault) : Prop where
  ascending : Ascending d
  lookup_eq : ∀ key, d.lookup key = typed.reverse.lookup key

/-- The entries inserted one after another. -/
def collect (found : ObjectDefault) (typed : List (String × DefaultValue)) : ObjectDefault :=
  typed.foldl (fun d t => d.insert t.1 t.2) found

/-! ## Insertion -/

theorem lookup_cons (e : String × DefaultValue) (d : ObjectDefault) (key : String) :
    (e :: d).lookup key = if key = e.1 then some e.2 else d.lookup key := by
  rw [List.lookup_cons]
  by_cases hk : key = e.1
  · rw [if_pos hk, beq_iff_eq.mpr hk]
  · rw [if_neg hk, beq_eq_false_iff_ne.mpr hk]

theorem lookup_insert (key : String) (value : DefaultValue) (d : ObjectDefault) (k : String) :
    (d.insert key value).lookup k = if k = key then some value else d.lookup k := by
  induction d with
  | nil => rw [insert, lookup_cons]
  | cons e d ih =>
    obtain ⟨k', v⟩ := e
    rw [insert]
    by_cases hKey : key = k'
    · rw [if_pos hKey, lookup_cons, lookup_cons, ← hKey]
      split_ifs <;> rfl
    · by_cases hLt : key < k'
      · rw [if_neg hKey, if_pos hLt, lookup_cons]
      · rw [if_neg hKey, if_neg hLt, lookup_cons, lookup_cons, ih]
        by_cases hk : k = k'
        · subst hk
          rw [if_pos rfl, if_neg (Ne.symm hKey), if_pos rfl]
        · rw [if_neg hk, if_neg hk]

theorem mem_insert {key : String} {value : DefaultValue} {d : ObjectDefault}
    {e : String × DefaultValue} (h : e ∈ d.insert key value) : e = (key, value) ∨ e ∈ d := by
  induction d with
  | nil => simpa [insert] using h
  | cons e' d ih =>
    obtain ⟨k', v⟩ := e'
    rw [insert] at h
    split_ifs at h with hKey hLt
    · rcases List.mem_cons.mp h with rfl | h
      · exact .inl rfl
      · exact .inr (List.mem_cons_of_mem _ h)
    · rcases List.mem_cons.mp h with rfl | h
      · exact .inl rfl
      · exact .inr h
    · rcases List.mem_cons.mp h with rfl | h
      · exact .inr (List.mem_cons_self ..)
      · rcases ih h with rfl | h
        · exact .inl rfl
        · exact .inr (List.mem_cons_of_mem _ h)

theorem ascending_insert (key : String) (value : DefaultValue) {d : ObjectDefault}
    (h : Ascending d) : Ascending (d.insert key value) := by
  induction d with
  | nil => exact List.pairwise_singleton _ _
  | cons e d ih =>
    obtain ⟨k', v⟩ := e
    obtain ⟨hHead, hTail⟩ := List.pairwise_cons.mp h
    unfold Ascending
    rw [insert]
    split_ifs with hKey hLt
    · subst hKey
      exact List.pairwise_cons.mpr ⟨hHead, hTail⟩
    · refine List.pairwise_cons.mpr ⟨?_, h⟩
      intro b hb
      rcases List.mem_cons.mp hb with rfl | hb
      · exact hLt
      · exact String.lt_trans hLt (hHead b hb)
    · have hGt : k' < key := by
        by_contra hNot
        exact hKey (String.le_antisymm (String.not_lt.mp hNot) (String.not_lt.mp hLt))
      refine List.pairwise_cons.mpr ⟨?_, ih hTail⟩
      intro b hb
      rcases mem_insert hb with rfl | hb
      · exact hGt
      · exact hHead b hb

/-! ## Collecting entries -/

theorem ascending_collect {found : ObjectDefault} (h : Ascending found)
    (typed : List (String × DefaultValue)) : Ascending (collect found typed) := by
  induction typed generalizing found with
  | nil => exact h
  | cons t typed ih => exact ih (ascending_insert t.1 t.2 h)

theorem lookup_collect (found : ObjectDefault) (typed : List (String × DefaultValue))
    (key : String) :
    (collect found typed).lookup key = (typed.reverse.lookup key).or (found.lookup key) := by
  induction typed generalizing found with
  | nil => rfl
  | cons t typed ih =>
    have hStep : collect found (t :: typed) = collect (found.insert t.1 t.2) typed := rfl
    rw [hStep, ih, lookup_insert, List.reverse_cons, List.lookup_append, Option.or_assoc, lookup_cons]
    congr 1
    split_ifs <;> rfl

theorem lookup_eq_none_of_lt {d : ObjectDefault} {key : String} (h : ∀ e ∈ d, key < e.1) :
    d.lookup key = none := by
  rw [List.lookup_eq_none_iff]
  intro e he
  have hNe : key ≠ e.1 := String.ne_of_lt (h e he)
  simpa using hNe

/-- Two maps with the same values are the same list. -/
theorem eq_of_lookup_eq {d d' : ObjectDefault} (h : Ascending d) (h' : Ascending d')
    (hLookup : ∀ key, d.lookup key = d'.lookup key) : d = d' := by
  induction d generalizing d' with
  | nil =>
    cases d' with
    | nil => rfl
    | cons e' d' =>
      have := hLookup e'.1
      rw [lookup_cons, if_pos rfl] at this
      cases this
  | cons e d ih =>
    obtain ⟨hHead, hTail⟩ := List.pairwise_cons.mp h
    cases d' with
    | nil =>
      have := hLookup e.1
      rw [lookup_cons, if_pos rfl] at this
      cases this
    | cons e' d' =>
      obtain ⟨hHead', hTail'⟩ := List.pairwise_cons.mp h'
      -- the smaller of the two first keys would be missing on the other side
      have hKey : e.1 = e'.1 := by
        by_contra hNe
        rcases String.le_total e.1 e'.1 with hLe | hLe
        · have hLt : e.1 < e'.1 :=
            String.not_le.mp fun hGe => hNe (String.le_antisymm hLe hGe)
          have hNone : (e' :: d').lookup e.1 = none := by
            apply lookup_eq_none_of_lt
            intro b hb
            rcases List.mem_cons.mp hb with rfl | hb
            · exact hLt
            · exact String.lt_trans hLt (hHead' b hb)
          rw [← hLookup e.1, lookup_cons, if_pos rfl] at hNone
          cases hNone
        · have hLt : e'.1 < e.1 :=
            String.not_le.mp fun hGe => hNe (String.le_antisymm hGe hLe)
          have hNone : (e :: d).lookup e'.1 = none := by
            apply lookup_eq_none_of_lt
            intro b hb
            rcases List.mem_cons.mp hb with rfl | hb
            · exact hLt
            · exact String.lt_trans hLt (hHead b hb)
          rw [hLookup e'.1, lookup_cons, if_pos rfl] at hNone
          cases hNone
      have hValue : e.2 = e'.2 := by
        have := hLookup e.1
        rw [lookup_cons, lookup_cons, if_pos rfl, if_pos hKey] at this
        exact Option.some.inj this
      have hRest : d = d' := by
        refine ih hTail hTail' ?_
        intro key
        by_cases hk : key = e.1
        · subst hk
          rw [lookup_eq_none_of_lt hHead, lookup_eq_none_of_lt (hKey ▸ hHead')]
        · have hk' : key ≠ e'.1 := hKey ▸ hk
          have := hLookup key
          rw [lookup_cons, lookup_cons, if_neg hk, if_neg hk'] at this
          exact this
      rw [Prod.ext hKey hValue, hRest]

/-- Inserting entries one by one gives the one map that they stand for. -/
theorem collectsTo_iff {typed : List (String × DefaultValue)} {d : ObjectDefault} :
    CollectsTo typed d ↔ collect [] typed = d := by
  have hAscending : Ascending (collect [] typed) := ascending_collect List.Pairwise.nil typed
  have hLookup : ∀ key, (collect [] typed).lookup key = typed.reverse.lookup key := by
    intro key
    rw [lookup_collect, List.lookup_nil, Option.or_none]
  constructor
  · intro h
    refine eq_of_lookup_eq hAscending h.ascending ?_
    intro key
    rw [hLookup, h.lookup_eq]
  · rintro rfl
    exact ⟨hAscending, hLookup⟩

end SnippetAudit.ObjectDefault
