import SnippetAudit.Outcome

/-!
# The order of a report

The order of outcomes is a total preorder. Two outcomes are tied in it iff their files have
the same components and their locations are the same. Sorting gives the same list for every
arrangement of outcomes of which no two different ones are tied.

Results:
* `compare_eq_eq_iff`: the outcomes that are tied.
* `pairwise_sort`: a sorted list does not descend.
* `sort_eq_of_perm`: without different outcomes that are tied, sorting forgets the arrangement.
-/

namespace SnippetAudit

/-! ## Paths -/

namespace Path

/-- The bytes of a name. -/
def Component.nameBytes : Component → List UInt8
  | .name bytes => bytes
  | _ => []

/-- Components are compared by their ranks first, and names by their bytes. -/
theorem Component.compare_eq :
    Component.compare = compareLex (compareOn Component.rank) (compareOn Component.nameBytes) := by
  funext a b
  cases a with
  | name x =>
    cases b with
    | name y => rfl
    | _ => rfl
  | _ => cases b <;> rfl

instance : Std.TransCmp Component.compare := by
  rw [Component.compare_eq]
  infer_instance

instance : Std.LawfulEqCmp Component.compare where
  compare_self := Std.ReflCmp.compare_self
  eq_of_compare {a b} h := by
    cases a with
    | name x =>
      cases b with
      | name y => exact congrArg Component.name (Std.LawfulEqCmp.eq_of_compare h)
      | _ => cases h
    | _ => cases b <;> first | rfl | cases h

instance : Std.TransCmp Path.compare where
  eq_swap := by
    unfold Path.compare
    exact Std.OrientedCmp.eq_swap
  isLE_trans := by
    unfold Path.compare
    exact Std.TransCmp.isLE_trans

/-- Paths are tied iff they have the same components. -/
theorem compare_eq_eq_iff {p q : Path} : p.compare q = .eq ↔ p.components = q.components := by
  unfold Path.compare
  exact Std.LawfulEqCmp.compare_eq_iff_eq

end Path

/-! ## Outcomes -/

namespace Outcome

instance : Std.TransCmp compareLocation where
  eq_swap {a b} := by
    cases a with
    | none => cases b <;> rfl
    | some a =>
      cases b with
      | none => rfl
      | some b =>
        have hLine : Ord.compare a.line b.line = (Ord.compare b.line a.line).swap :=
          Std.OrientedCmp.eq_swap
        exact hLine
  isLE_trans {a b c} hab hbc := by
    cases a with
    | none => cases c <;> rfl
    | some a =>
      cases b with
      | none => cases hab
      | some b =>
        cases c with
        | none => cases hbc
        | some c =>
          have hLine : (Ord.compare a.line b.line).isLE = true := hab
          have hLine' : (Ord.compare b.line c.line).isLE = true := hbc
          have hTrans : (Ord.compare a.line c.line).isLE = true :=
            Std.TransCmp.isLE_trans hLine hLine'
          exact hTrans

theorem compareLocation_eq_eq_iff {a b : Option Location} : compareLocation a b = .eq ↔ a = b := by
  cases a with
  | none => cases b <;> simp [compareLocation]
  | some a =>
    cases b with
    | none => simp [compareLocation]
    | some b => rw [compareLocation, Location.compare_eq_iff, Option.some.injEq]

instance : Std.TransCmp Outcome.compare where
  eq_swap {a b} := by
    have hPath : a.filename.compare b.filename = (b.filename.compare a.filename).swap :=
      Std.OrientedCmp.eq_swap
    have hLocation : compareLocation a.location b.location =
        (compareLocation b.location a.location).swap := Std.OrientedCmp.eq_swap
    rw [Outcome.compare, hPath, hLocation, ← Ordering.swap_then]
    rfl
  isLE_trans {a b c} hab hbc := by
    unfold Outcome.compare at hab hbc ⊢
    rw [Ordering.isLE_then_iff_and] at hab hbc ⊢
    obtain ⟨hPath, hRest⟩ := hab
    obtain ⟨hPath', hRest'⟩ := hbc
    refine ⟨Std.TransCmp.isLE_trans hPath hPath', ?_⟩
    rcases hRest with hLt | hLocation
    · exact .inl (Std.TransCmp.lt_of_lt_of_isLE hLt hPath')
    · rcases hRest' with hLt' | hLocation'
      · exact .inl (Std.TransCmp.lt_of_isLE_of_lt hPath hLt')
      · exact .inr (Std.TransCmp.isLE_trans hLocation hLocation')

/-- Outcomes are tied iff their files have the same components and their locations are the
    same. -/
theorem compare_eq_eq_iff {a b : Outcome} :
    a.compare b = .eq ↔ a.filename.components = b.filename.components ∧ a.location = b.location := by
  unfold Outcome.compare
  rw [Ordering.then_eq_eq, Path.compare_eq_eq_iff, compareLocation_eq_eq_iff]

/-! ## Sorting -/

theorem precedes_iff {a b : Outcome} : a.precedes b = true ↔ (a.compare b).isLE = true := by
  unfold precedes
  cases a.compare b <;> decide

theorem precedes_trans (a b c : Outcome) (hab : a.precedes b = true) (hbc : b.precedes c = true) :
    a.precedes c = true := by
  rw [precedes_iff] at hab hbc ⊢
  exact Std.TransCmp.isLE_trans hab hbc

theorem precedes_total (a b : Outcome) : (a.precedes b || b.precedes a) = true := by
  have hSwap : a.compare b = (b.compare a).swap := Std.OrientedCmp.eq_swap
  unfold precedes
  rw [hSwap]
  cases b.compare a <;> rfl

/-- Outcomes that may stand before each other are tied. -/
theorem compare_eq_of_precedes {a b : Outcome} (hab : a.precedes b = true)
    (hba : b.precedes a = true) : a.compare b = .eq := by
  have hSwap : a.compare b = (b.compare a).swap := Std.OrientedCmp.eq_swap
  unfold precedes at hab hba
  rw [hSwap] at hab ⊢
  cases h : b.compare a with
  | lt => rw [h] at hab; cases hab
  | eq => rfl
  | gt => rw [h] at hba; cases hba

/-- A sorted list does not descend. -/
theorem pairwise_sort (outcomes : List Outcome) :
    (sort outcomes).Pairwise fun a b => a.precedes b = true :=
  List.pairwise_mergeSort precedes_trans precedes_total outcomes

/-- Without different outcomes that are tied, sorting forgets the arrangement. -/
theorem sort_eq_of_perm {l l' : List Outcome} (h : l.Perm l')
    (hTied : ∀ a ∈ l, ∀ b ∈ l, a.compare b = .eq → a = b) : sort l = sort l' := by
  have hPerm : (sort l).Perm (sort l') := (sort_perm l).trans (h.trans (sort_perm l').symm)
  apply List.Perm.eq_of_pairwise _ (pairwise_sort l) (pairwise_sort l') hPerm
  intro a b ha hb hab hba
  have ha' : a ∈ l := (sort_perm l).mem_iff.mp ha
  have hb' : b ∈ l := h.mem_iff.mpr ((sort_perm l').mem_iff.mp hb)
  exact hTied a ha' b hb' (compare_eq_of_precedes hab hba)

end Outcome

end SnippetAudit
