import SnippetAudit.Proofs.Outcome.Order

/-!
# Sorting keeps ties in order

Sorting is the one rearrangement of outcomes that does not descend and leaves tied outcomes in the
order in which they came. So what was sorted before may be sorted again with more outcomes behind
it, and where no two different outcomes are tied the order in which they came is forgotten.

Results:
* `eq_of_filter_tied`: a list that does not descend is known by the outcomes of each tie.
* `filter_tied_sort`: sorting leaves the outcomes of a tie in their order.
* `sort_append`: a part that is sorted beforehand makes no difference.
* `isStableSort_iff`: the order of outcomes, and sorting by it.
-/

namespace SnippetAudit.Outcome

/-! ## Specification -/

/-- Whether two outcomes are equal in the order of a report. -/
def tied (a b : Outcome) : Bool := a.compare b == .eq

/-- The second list is the first one in the order of a report, with tied outcomes in the order in
    which they came. -/
structure IsStableSort (outcomes sorted : List Outcome) : Prop where
  perm : sorted.Perm outcomes
  pairwise : sorted.Pairwise fun a b => a.precedes b = true
  stable : ∀ o : Outcome, sorted.filter o.tied = outcomes.filter o.tied

/-! ## Ties -/

variable {a b o : Outcome} {l l' : List Outcome}

theorem tied_iff : a.tied b = true ↔ a.compare b = .eq := beq_iff_eq

theorem tied_self (a : Outcome) : a.tied a = true := tied_iff.mpr Std.ReflCmp.compare_self

/-- What is tied with one outcome may stand in any order. -/
theorem precedes_of_tied (ha : o.tied a = true) (hb : o.tied b = true) : a.precedes b = true := by
  have hao : a.compare o = .eq := Std.OrientedCmp.eq_symm (tied_iff.mp ha)
  rw [precedes_iff, Std.TransCmp.eq_trans hao (tied_iff.mp hb)]
  rfl

/-! ## Lists that do not descend -/

/-- A list that does not descend is known by the outcomes of each tie. -/
theorem eq_of_filter_tied (h : l.Pairwise fun a b => a.precedes b = true)
    (h' : l'.Pairwise fun a b => a.precedes b = true)
    (hTied : ∀ o : Outcome, l.filter o.tied = l'.filter o.tied) : l = l' := by
  induction l generalizing l' with
  | nil =>
    refine (List.eq_nil_iff_forall_not_mem.mpr ?_).symm
    intro b hb
    have hNone : b ∈ ([] : List Outcome).filter b.tied := by
      rw [hTied b]
      exact List.mem_filter.mpr ⟨hb, tied_self b⟩
    exact absurd (List.mem_filter.mp hNone).1 List.not_mem_nil
  | cons a l ih =>
    have hMem : a ∈ l' := by
      have hOne : a ∈ (a :: l).filter a.tied :=
        List.mem_filter.mpr ⟨List.mem_cons_self, tied_self a⟩
      rw [hTied a] at hOne
      exact (List.mem_filter.mp hOne).1
    cases l' with
    | nil => exact absurd hMem List.not_mem_nil
    | cons b l' =>
      have hMem' : b ∈ a :: l := by
        have hOne : b ∈ (b :: l').filter b.tied :=
          List.mem_filter.mpr ⟨List.mem_cons_self, tied_self b⟩
        rw [← hTied b] at hOne
        exact (List.mem_filter.mp hOne).1
      obtain ⟨hFirst, hRest⟩ := List.pairwise_cons.mp h
      obtain ⟨hFirst', hRest'⟩ := List.pairwise_cons.mp h'
      -- each of the first two may stand before the other, so they are tied and hence the same
      have hab : a.precedes b = true := by
        rcases List.mem_cons.mp hMem' with rfl | hb
        · exact precedes_of_tied (tied_self b) (tied_self b)
        · exact hFirst b hb
      have hba : b.precedes a = true := by
        rcases List.mem_cons.mp hMem with rfl | ha
        · exact hab
        · exact hFirst' a ha
      have hTie : a.tied b = true := tied_iff.mpr (compare_eq_of_precedes hab hba)
      have hSame := hTied a
      rw [List.filter_cons_of_pos (tied_self a), List.filter_cons_of_pos hTie] at hSame
      obtain rfl : a = b := (List.cons.inj hSame).1
      rw [ih hRest hRest']
      intro o
      have hBoth := hTied o
      rw [List.filter_cons, List.filter_cons] at hBoth
      split at hBoth
      · exact (List.cons.inj hBoth).2
      · exact hBoth

/-! ## Sorting -/

/-- Sorting leaves the outcomes of a tie in their order. -/
theorem filter_tied_sort (o : Outcome) (l : List Outcome) :
    (sort l).filter o.tied = l.filter o.tied := by
  have hTied : (l.filter o.tied).Pairwise fun a b => a.precedes b = true := by
    refine List.pairwise_of_forall_mem_list ?_
    intro a ha b hb
    exact precedes_of_tied (List.mem_filter.mp ha).2 (List.mem_filter.mp hb).2
  have hSublist : (l.filter o.tied).Sublist (sort l) :=
    List.sublist_mergeSort precedes_trans precedes_total hTied List.filter_sublist
  have hTwice : (l.filter o.tied).filter o.tied = l.filter o.tied :=
    List.filter_eq_self.mpr fun a ha => (List.mem_filter.mp ha).2
  have hFilter := hSublist.filter o.tied
  rw [hTwice] at hFilter
  exact (hFilter.eq_of_length ((sort_perm l).filter o.tied).length_eq.symm).symm

theorem isStableSort_sort (l : List Outcome) : IsStableSort l (sort l) :=
  ⟨sort_perm l, pairwise_sort l, fun o => filter_tied_sort o l⟩

/-- Sorting a part beforehand makes no difference. -/
theorem sort_append (l l' : List Outcome) : sort (sort l ++ l') = sort (l ++ l') := by
  refine eq_of_filter_tied (pairwise_sort _) (pairwise_sort _) ?_
  intro o
  rw [filter_tied_sort, filter_tied_sort, List.filter_append, List.filter_append, filter_tied_sort]

/-- The order of outcomes is total, and it ties those outcomes whose files have the same components
    and whose locations are the same. Of all lists just the sorted one is a stable sort of the
    outcomes. -/
theorem isStableSort_iff :
    ((∀ a : Outcome, a.compare a = .eq) ∧
      (∀ a b : Outcome, a.compare b = (b.compare a).swap) ∧
      (∀ a b : Outcome, a.precedes b = true ∨ b.precedes a = true) ∧
      (∀ a b c : Outcome, a.precedes b = true → b.precedes c = true → a.precedes c = true) ∧
      ∀ a b : Outcome, a.compare b = .eq ↔
        a.filename.components = b.filename.components ∧ a.location = b.location) ∧
    (∀ l l', IsStableSort l l' ↔ l' = sort l) ∧
    (∀ l l', sort (sort l ++ l') = sort (l ++ l')) ∧
    ∀ l l' : List Outcome, l.Perm l' → (∀ a ∈ l, ∀ b ∈ l, a.compare b = .eq → a = b) →
      sort l = sort l' := by
  refine ⟨⟨fun a => Std.ReflCmp.compare_self, fun a b => Std.OrientedCmp.eq_swap, ?_,
    precedes_trans, fun a b => compare_eq_eq_iff⟩, ?_, sort_append, fun l l' => sort_eq_of_perm⟩
  · intro a b
    exact Bool.or_eq_true_iff.mp (precedes_total a b)
  · intro l l'
    constructor
    · intro h
      refine eq_of_filter_tied h.pairwise (pairwise_sort l) ?_
      intro o
      rw [h.stable o, filter_tied_sort]
    · rintro rfl
      exact isStableSort_sort l

/-- Outcomes of a directory, of a file in it and of a file beside it, last things first. -/
def scattered : List Outcome :=
  [.fileFailure (.ofText ['a', '.', 'b']) (.io "x"),
    ⟨.ofText ['a', '/', '/', 'b'], some (.ofIndex 6), [], []⟩,
    .fileFailure (.ofText ['a', '/', 'b']) (.io "y"), .fileFailure (.ofText ['a', '/']) (.io "z")]

/-- The file `a.b` comes behind the directory `a` and all that is in it. -/
theorem isStableSort_iff_scattered :
    scattered.Perm scattered.reverse ∧
    (∀ a ∈ scattered, ∀ b ∈ scattered, a.compare b = .eq → a = b) ∧
    sort scattered = scattered.reverse := by
  have hPerm : scattered.Perm scattered.reverse := scattered.reverse_perm.symm
  have hTied : ∀ a ∈ scattered, ∀ b ∈ scattered, a.compare b = .eq → a = b := by decide
  have hSorted : sort scattered.reverse = scattered.reverse :=
    List.mergeSort_of_pairwise (by decide +kernel)
  exact ⟨hPerm, hTied, (isStableSort_iff.2.2.2 _ _ hPerm hTied).trans hSorted⟩

end SnippetAudit.Outcome
