import SnippetAudit.Proofs.Outcome.Order
import SnippetAudit.Proofs.Tree.Isolation

/-!
# What stands together in a report

Paths are ordered by their components, so what lies under a path is not parted by anything else: a
path between two others has all components that these have in common in front. In a report the
outcomes under a path stand together, with those of the path itself first, and of these what
concerns the whole path before its lines in ascending order.

Results:
* `isPrefix_of_between`: what lies between two lists that start with a third one starts with it.
* `exists_segment_of_pairwise`, `eq_filter_append_of_pairwise`: what a list that does not descend
  has of a kind without gaps, and of a kind that comes first.
* `exists_segment_sort`: the outcomes under a path in a sorted list.
-/

namespace SnippetAudit

/-! ## Lists that do not descend -/

section

variable {α : Type} {R : α → α → Prop} {l : List α}

/-- What is of a kind without gaps stands together. -/
theorem exists_segment_of_pairwise {p : α → Bool} (h : l.Pairwise R)
    (hGapless : ∀ a b c, R a b → R b c → p a = true → p c = true → p b = true) :
    ∃ before after, l = before ++ (l.filter p ++ after) ∧ (∀ a ∈ before, p a = false) ∧
      ∀ a ∈ after, p a = false := by
  induction l with
  | nil => exact ⟨[], [], rfl, by simp, by simp⟩
  | cons a l ih =>
    obtain ⟨hFirst, hRest⟩ := List.pairwise_cons.mp h
    obtain ⟨before, after, hSplit, hBefore, hAfter⟩ := ih hRest
    cases ha : p a with
    | false =>
      refine ⟨a :: before, after, ?_, List.forall_mem_cons.mpr ⟨ha, hBefore⟩, hAfter⟩
      rw [List.filter_cons_of_neg (by simp [ha]), List.cons_append, ← hSplit]
    | true =>
      rw [List.filter_cons_of_pos ha]
      cases hFilter : l.filter p with
      | nil =>
        rw [hFilter, List.nil_append] at hSplit
        refine ⟨[], before ++ after, by rw [hSplit]; rfl, by simp, ?_⟩
        exact List.forall_mem_append.mpr ⟨hBefore, hAfter⟩
      | cons c others =>
        -- what stood before the others would be a gap between them and the first item
        have hNone : before = [] := by
          refine List.eq_nil_iff_forall_not_mem.mpr ?_
          intro b hb
          have hc : p c = true := (List.mem_filter.mp (hFilter ▸ List.mem_cons_self)).2
          rw [hSplit, hFilter] at hRest hFirst
          have hbc : R b c := (List.pairwise_append.mp hRest).2.2 b hb c (by simp)
          have hab : R a b := hFirst b (List.mem_append_left _ hb)
          exact absurd (hGapless a b c hab hbc ha hc) (by simp [hBefore b hb])
        rw [hNone, hFilter, List.nil_append] at hSplit
        exact ⟨[], after, by rw [hSplit]; rfl, by simp, hAfter⟩

/-- What is of a kind that comes first stands in front of all else. -/
theorem eq_filter_append_of_pairwise {p : α → Bool} (h : l.Pairwise R)
    (hFirst : ∀ a ∈ l, ∀ b ∈ l, R a b → p b = true → p a = true) :
    l = l.filter p ++ l.filter (!p ·) := by
  induction l with
  | nil => rfl
  | cons a l ih =>
    obtain ⟨hHead, hRest⟩ := List.pairwise_cons.mp h
    have hTail : l = l.filter p ++ l.filter (!p ·) :=
      ih hRest fun b hb c hc => hFirst b (List.mem_cons_of_mem a hb) c (List.mem_cons_of_mem a hc)
    cases ha : p a with
    | true =>
      rw [List.filter_cons_of_pos ha, List.filter_cons_of_neg (by simp [ha]), List.cons_append,
        ← hTail]
    | false =>
      have hNone : l.filter p = [] := by
        rw [List.filter_eq_nil_iff]
        intro b hb hpb
        have := hFirst a List.mem_cons_self b (List.mem_cons_of_mem a hb) (hHead b hb) hpb
        rw [ha] at this
        cases this
      rw [hNone, List.nil_append] at hTail
      rw [List.filter_cons_of_neg (by simp [ha]), List.filter_cons_of_pos (by simp [ha]), hNone,
        ← hTail, List.nil_append]

end

/-! ## Components -/

namespace Path

/-- What lies between two lists that start with a third one starts with it. -/
theorem isPrefix_of_between {d a b c : List Component}
    (hab : (List.compareLex Component.compare a b).isLE = true)
    (hbc : (List.compareLex Component.compare b c).isLE = true) (ha : d <+: a) (hc : d <+: c) :
    d <+: b := by
  induction d generalizing a b c with
  | nil => exact List.nil_prefix
  | cons x d ih =>
    obtain ⟨a, rfl⟩ := ha
    obtain ⟨c, rfl⟩ := hc
    cases b with
    | nil => cases hab
    | cons y b =>
      rw [List.cons_append, List.compareLex_cons_cons, Ordering.isLE_then_iff_and] at hab hbc
      have hxy : Component.compare x y = .eq := Std.OrientedCmp.isLE_antisymm hab.1 hbc.1
      obtain rfl : x = y := Std.LawfulEqCmp.eq_of_compare hxy
      rw [hxy] at hab hbc
      rw [List.cons_prefix_cons]
      refine ⟨rfl, ih ?_ ?_ (List.prefix_append d a) (List.prefix_append d c)⟩
      · exact hab.2.resolve_left (by simp)
      · exact hbc.2.resolve_left (by simp)

/-- A list stands before all lists that start with it. -/
theorem isLE_of_isPrefix {a b : List Component} (h : a <+: b) :
    (List.compareLex Component.compare a b).isLE = true := by
  induction a generalizing b with
  | nil => cases b <;> rfl
  | cons x a ih =>
    obtain ⟨b, rfl⟩ := h
    have hSame : Component.compare x x = .eq := Std.ReflCmp.compare_self
    rw [List.cons_append, List.compareLex_cons_cons, hSame]
    exact ih (List.prefix_append a b)

end Path

/-! ## Outcomes -/

namespace Outcome

variable {d : Path} {a b c : Outcome}

theorem isLE_filename_of_precedes (h : a.precedes b = true) :
    (a.filename.compare b.filename).isLE = true := by
  rw [precedes_iff, Outcome.compare, Ordering.isLE_then_iff_and] at h
  exact h.1

/-- What stands between outcomes under a path is under it. -/
theorem isUnder_of_between (hab : a.precedes b = true) (hbc : b.precedes c = true)
    (ha : a.filename.IsUnder d) (hc : c.filename.IsUnder d) : b.filename.IsUnder d :=
  Path.isPrefix_of_between (isLE_filename_of_precedes hab) (isLE_filename_of_precedes hbc) ha hc

/-- What stands before an outcome of a path and is under the path is an outcome of it. -/
theorem components_eq_of_precedes (h : a.precedes b = true) (ha : a.filename.IsUnder d)
    (hb : b.filename.components = d.components) : a.filename.components = d.components := by
  have hLE : (List.compareLex Path.Component.compare d.components
      a.filename.components).isLE = true :=
    Path.isLE_of_isPrefix ha
  have hGE := isLE_filename_of_precedes h
  rw [Path.compare, hb] at hGE
  exact Std.LawfulEqCmp.eq_of_compare (Std.OrientedCmp.isLE_antisymm hGE hLE)

theorem isLE_location_of_precedes (h : a.precedes b = true)
    (hSame : a.filename.components = b.filename.components) :
    (compareLocation a.location b.location).isLE = true := by
  rw [precedes_iff, Outcome.compare, Path.compare_eq_eq_iff.mpr hSame] at h
  exact h

/-- What concerns a whole file comes first. -/
theorem isNone_location_of_isLE (h : (compareLocation a.location b.location).isLE = true)
    (hb : b.location.isNone = true) : a.location.isNone = true := by
  rw [Option.isNone_iff_eq_none] at hb ⊢
  cases ha : a.location with
  | none => rfl
  | some l =>
    rw [ha, hb] at h
    cases h

/-- Behind a line stand later lines. -/
theorem exists_lines_of_isLE (h : (compareLocation a.location b.location).isLE = true)
    (ha : a.location ≠ none) : ∃ i j, a.line? = some i ∧ b.line? = some j ∧ i ≤ j := by
  unfold line?
  obtain ⟨l, hl⟩ := Option.ne_none_iff_exists'.mp ha
  cases hb : b.location with
  | none =>
    rw [hl, hb] at h
    cases h
  | some m =>
    rw [hl, hb] at h
    rw [hl]
    exact ⟨l.line, m.line, rfl, rfl, Nat.isLE_compare.mp h⟩

/-- The outcomes of one path: what concerns the whole path, and then its lines, which do not
    descend. -/
theorem exists_whole_append_located {l : List Outcome}
    (h : l.Pairwise fun a b => a.precedes b = true)
    (hSame : ∀ o ∈ l, o.filename.components = d.components) :
    ∃ whole located, l = whole ++ located ∧ (∀ o ∈ whole, o.location = none) ∧
      (∀ o ∈ located, o.location ≠ none) ∧
      located.Pairwise fun a b => ∃ i j, a.line? = some i ∧ b.line? = some j ∧ i ≤ j := by
  have hLocations : l.Pairwise fun a b => (compareLocation a.location b.location).isLE = true :=
    h.imp_of_mem fun ha hb hab =>
      isLE_location_of_precedes hab ((hSame _ ha).trans (hSame _ hb).symm)
  have hLocated : ∀ o ∈ l.filter (!·.location.isNone), o.location ≠ none := by
    intro o ho
    rw [← Option.isSome_iff_ne_none, ← Option.not_isNone]
    exact (List.mem_filter.mp ho).2
  refine ⟨l.filter (·.location.isNone), l.filter (!·.location.isNone),
    eq_filter_append_of_pairwise hLocations fun a _ b _ => isNone_location_of_isLE, ?_, hLocated,
    ?_⟩
  · intro o ho
    exact Option.isNone_iff_eq_none.mp (List.mem_filter.mp ho).2
  · refine (hLocations.filter (!·.location.isNone)).imp_of_mem ?_
    intro a b ha _ hab
    exact exists_lines_of_isLE hab (hLocated a ha)

/-- In a sorted list, which holds the outcomes that were sorted and no others, those under a path stand
    together. First come those of the path itself, what concerns the whole path before its lines, and
    the lines do not descend. Then come those below the path. -/
theorem exists_segment_sort (outcomes : List Outcome) (d : Path) :
    ∃ before whole located below after,
      sort outcomes = before ++ (whole ++ located ++ below ++ after) ∧
      (before ++ (whole ++ located ++ below ++ after)).Perm outcomes ∧
      (∀ o ∈ before ++ after, ¬ o.filename.IsUnder d) ∧
      (∀ o ∈ whole, o.filename.components = d.components ∧ o.location = none) ∧
      (∀ o ∈ located, o.filename.components = d.components ∧ o.location ≠ none) ∧
      (located.Pairwise fun a b => ∃ i j, a.line? = some i ∧ b.line? = some j ∧ i ≤ j) ∧
      ∀ o ∈ below, o.filename.IsBelow d := by
  let isUnder (o : Outcome) : Bool := decide (o.filename.IsUnder d)
  let isOwn (o : Outcome) : Bool := decide (o.filename.components = d.components)
  obtain ⟨before, after, hSplit, hBefore, hAfter⟩ := exists_segment_of_pairwise (p := isUnder)
    (pairwise_sort outcomes) fun a b c hab hbc ha hc =>
      decide_eq_true (isUnder_of_between hab hbc (of_decide_eq_true ha) (of_decide_eq_true hc))
  have hUnder : ∀ o ∈ (sort outcomes).filter isUnder, o.filename.IsUnder d :=
    fun o ho => of_decide_eq_true (List.mem_filter.mp ho).2
  have hPairwise : ((sort outcomes).filter isUnder).Pairwise fun a b => a.precedes b = true :=
    (pairwise_sort outcomes).filter isUnder
  generalize (sort outcomes).filter isUnder = segment at hSplit hUnder hPairwise
  have hSegment := eq_filter_append_of_pairwise (p := isOwn) hPairwise fun a ha b hb hab hOwn =>
    decide_eq_true (components_eq_of_precedes hab (hUnder a ha) (of_decide_eq_true hOwn))
  have hOwn : ∀ o ∈ segment.filter isOwn, o.filename.components = d.components :=
    fun o ho => of_decide_eq_true (List.mem_filter.mp ho).2
  obtain ⟨whole, located, hOwnSplit, hWhole, hLocated, hLines⟩ :=
    exists_whole_append_located (hPairwise.filter isOwn) hOwn
  rw [hOwnSplit] at hSegment hOwn
  obtain ⟨hOwnWhole, hOwnLocated⟩ := List.forall_mem_append.mp hOwn
  rw [hSegment] at hSplit
  refine ⟨before, whole, located, segment.filter (!isOwn ·), after, hSplit, ?_, ?_,
    fun o ho => ⟨hOwnWhole o ho, hWhole o ho⟩, fun o ho => ⟨hOwnLocated o ho, hLocated o ho⟩,
    hLines, ?_⟩
  · rw [← hSplit]
    exact sort_perm outcomes
  · exact List.forall_mem_append.mpr
      ⟨fun o ho => of_decide_eq_false (hBefore o ho), fun o ho => of_decide_eq_false (hAfter o ho)⟩
  · intro o ho
    obtain ⟨hMem, hNot⟩ := List.mem_filter.mp ho
    exact ⟨hUnder o hMem, by simpa [isOwn] using hNot⟩

/-- An outcome of a line of a path, without a finding. -/
def ofLine (path : String) (index : ℕ) : Outcome := ⟨.ofString path, some (.ofIndex index), [], []⟩

/-- Outcomes above `r/a`, of it, below it and beside it. -/
def aroundShelf : List Outcome :=
  [.fileFailure (.ofString "r/a/x") (.io "gone"), ofLine "r/a" 8, ofLine "r/a-b" 0, ofLine "r/a" 2,
    .fileFailure (.ofString "r/a") (.io "torn"), .fileFailure (.ofString "r") (.io "denied")]

/-- The outcomes around `r/a` are sorted into all five parts. -/
theorem exists_segment_sort_aroundShelf :
    ∃ before whole located below after,
      sort aroundShelf = before ++ (whole ++ located ++ below ++ after) ∧
      (∀ o ∈ [.fileFailure (.ofString "r") (.io "denied"), ofLine "r/a-b" 0], o ∈ before ++ after) ∧
      .fileFailure (.ofString "r/a") (.io "torn") ∈ whole ∧
      (∀ o ∈ [ofLine "r/a" 2, ofLine "r/a" 8], o ∈ located) ∧
      (located.Pairwise fun a b => ∃ i j, a.line? = some i ∧ b.line? = some j ∧ i ≤ j) ∧
      .fileFailure (.ofString "r/a/x") (.io "gone") ∈ below := by
  obtain ⟨before, whole, located, below, after, hSplit, hPerm, hOutside, hWhole, hLocated, hLines,
    hBelow⟩ := exists_segment_sort aroundShelf (.ofString "r/a")
  have hParts (o : Outcome) (ho : o ∈ aroundShelf) :
      o ∈ before ++ after ∨ o ∈ whole ∨ o ∈ located ∨ o ∈ below := by
    have hMem := hPerm.mem_iff.mpr ho
    simp only [List.mem_append] at hMem ⊢
    tauto
  refine ⟨before, whole, located, below, after, hSplit, ?_, ?_, ?_, hLines, ?_⟩
  · intro o ho
    have hNot : ¬ o.filename.IsUnder (.ofString "r/a") ∧ o ∈ aroundShelf := by
      revert o
      decide
    rcases hParts o hNot.2 with hMem | hMem | hMem | hMem
    · exact hMem
    · exact absurd (Path.isUnder_of_components_eq (hWhole o hMem).1) hNot.1
    · exact absurd (Path.isUnder_of_components_eq (hLocated o hMem).1) hNot.1
    · exact absurd (hBelow o hMem).1 hNot.1
  · rcases hParts (.fileFailure (.ofString "r/a") (.io "torn")) (by decide) with
      hMem | hMem | hMem | hMem
    · exact absurd (by decide) (hOutside _ hMem)
    · exact hMem
    · exact absurd rfl (hLocated _ hMem).2
    · exact absurd (hBelow _ hMem) (by decide)
  · intro o ho
    have hLine : o.filename.IsUnder (.ofString "r/a") ∧ ¬ o.filename.IsBelow (.ofString "r/a") ∧
        o.location ≠ none ∧ o ∈ aroundShelf := by
      revert o
      decide
    rcases hParts o hLine.2.2.2 with hMem | hMem | hMem | hMem
    · exact absurd hLine.1 (hOutside o hMem)
    · exact absurd (hWhole o hMem).2 hLine.2.2.1
    · exact hMem
    · exact absurd (hBelow o hMem) hLine.2.1
  · rcases hParts (.fileFailure (.ofString "r/a/x") (.io "gone")) (by decide) with
      hMem | hMem | hMem | hMem
    · exact absurd (by decide) (hOutside _ hMem)
    · exact absurd (hWhole _ hMem).1 (by decide)
    · exact absurd rfl (hLocated _ hMem).2
    · exact hMem

end Outcome

end SnippetAudit
