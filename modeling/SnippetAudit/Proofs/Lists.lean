import Mathlib.Data.List.Forall2
import Mathlib.Data.List.TakeWhile

/-!
# Lists item by item, and results step by step

Two lists that are related item by item, and reading the items of a list one by one. Steps that may
fail come to a result iff each of them does.

Results:
* `bind_eq_ok_iff`, `map_eq_ok_iff`, `pure_eq_ok_iff`: steps that may fail, one for each way to go on.
* `mapM_eq_some_iff`: a list is read iff each of its items is.
* `mapM_map_eq_some`: what is written item by item is read back.
* `pairwise_of_forall₂`: what holds of two items in order passes to their partners.
* `forall₂_append_left_iff`, `forall₂_append_cons_left_iff`: the partners of a list that is put together.
* `forall₂_modify`: a list and what becomes of it by a change to one item.
* `filter_eq_singleton_of_pairwise`: in ascending order each value is that of one item.
* `exists_first_of_not_forall`: the first item of which something does not hold.
* `forall₂_mergeSort`: lists that are related and ordered alike are related in order.
* `flatMap_cons_eq_map_iff`: what is put behind the items of a list shows, unless it is nothing.
* `takeWhile_append_of_head?`: a front ends at the first item that does not belong to it.
* `append_eq_append_cons_cases`, `exists_of_flatMap_eq_append_cons`: where an item of lists that are
  put together comes from.
-/

namespace SnippetAudit

/-! ## Steps that may fail -/

section Steps

variable {ε α β : Type}

theorem bind_eq_ok_iff {x : Except ε α} {f : α → Except ε β} {b : β} :
    (x >>= f) = .ok b ↔ ∃ a, x = .ok a ∧ f a = .ok b := by
  cases x <;> simp [bind, Except.bind]

theorem map_eq_ok_iff {x : Except ε α} {f : α → β} {b : β} :
    x.map f = .ok b ↔ ∃ a, x = .ok a ∧ f a = b := by
  cases x <;> simp [Except.map]

theorem pure_eq_ok_iff {a b : α} : (pure a : Except ε α) = .ok b ↔ a = b := by
  simp [pure, Except.pure]

end Steps

/-! ## Lists -/

variable {α β : Type}

/-- A list is read iff each of its items is. -/
theorem mapM_eq_some_iff {read : α → Option β} {R : α → β → Prop}
    (hRead : ∀ {a b}, read a = some b ↔ R a b) {as : List α} {bs : List β} :
    as.mapM read = some bs ↔ List.Forall₂ R as bs := by
  induction as generalizing bs with
  | nil => simp [List.forall₂_nil_left_iff, eq_comm]
  | cons a as ih =>
    rw [List.forall₂_cons_left_iff, List.mapM_cons]
    simp only [Option.bind_eq_bind, Option.bind_eq_some_iff, hRead, ih, Option.pure_def,
      Option.some.injEq]
    constructor
    · rintro ⟨b, hb, bs, hbs, rfl⟩
      exact ⟨b, bs, hb, hbs, rfl⟩
    · rintro ⟨b, bs, hb, hbs, rfl⟩
      exact ⟨b, hb, bs, hbs, rfl⟩

/-- What is written item by item is read back, if each item is. -/
theorem mapM_map_eq_some {read : β → Option α} {write : α → β} {as : List α}
    (h : ∀ a ∈ as, read (write a) = some a) : (as.map write).mapM read = some as := by
  induction as with
  | nil => rfl
  | cons a as ih =>
    obtain ⟨ha, has⟩ := List.forall_mem_cons.mp h
    rw [List.map_cons, List.mapM_cons, ha, ih has]
    rfl

theorem exists_mem_of_forall₂ {R : α → β → Prop} {as : List α} {bs : List β}
    (h : List.Forall₂ R as bs) {b : β} (hb : b ∈ bs) : ∃ a ∈ as, R a b := by
  induction h with
  | nil => cases hb
  | cons hR _ ih =>
    rcases List.mem_cons.mp hb with rfl | hb
    · exact ⟨_, List.mem_cons_self, hR⟩
    · obtain ⟨a, ha, hR⟩ := ih hb
      exact ⟨a, List.mem_cons_of_mem _ ha, hR⟩

theorem exists_mem_right_of_forall₂ {R : α → β → Prop} {as : List α} {bs : List β}
    (h : List.Forall₂ R as bs) {a : α} (ha : a ∈ as) : ∃ b ∈ bs, R a b :=
  exists_mem_of_forall₂ h.flip ha

theorem forall₂_imp_of_mem {R S : α → β → Prop} {as : List α} {bs : List β}
    (h : List.Forall₂ R as bs) (hImp : ∀ a b, a ∈ as → b ∈ bs → R a b → S a b) :
    List.Forall₂ S as bs := by
  induction h with
  | nil => exact .nil
  | cons hR _ ih =>
    refine .cons (hImp _ _ List.mem_cons_self List.mem_cons_self hR) (ih ?_)
    intro a b ha hb hab
    exact hImp a b (List.mem_cons_of_mem _ ha) (List.mem_cons_of_mem _ hb) hab

/-- What two items in order give for their partners holds of the partners in order. -/
theorem pairwise_of_forall₂ {R : α → β → Prop} {S : α → α → Prop} {T : β → β → Prop}
    {as : List α} {bs : List β} (h : List.Forall₂ R as bs) (hS : as.Pairwise S)
    (hStep : ∀ a ∈ as, ∀ a' ∈ as, ∀ b b', R a b → R a' b' → S a a' → T b b') : bs.Pairwise T := by
  induction h with
  | nil => exact .nil
  | @cons a b as bs hab has ih =>
    obtain ⟨hHead, hTail⟩ := List.pairwise_cons.mp hS
    refine List.pairwise_cons.mpr ⟨?_, ih hTail ?_⟩
    · intro b' hb'
      obtain ⟨a', ha', hR⟩ := exists_mem_of_forall₂ has hb'
      exact hStep a List.mem_cons_self a' (List.mem_cons_of_mem _ ha') b b' hab hR (hHead a' ha')
    · intro a₁ h₁ a₂ h₂
      exact hStep a₁ (List.mem_cons_of_mem _ h₁) a₂ (List.mem_cons_of_mem _ h₂)

/-- Where not everything holds there is a first place where it does not. -/
theorem exists_first_of_not_forall {P : α → Prop} {as : List α} (h : ¬ ∀ a ∈ as, P a) :
    ∃ front a back, as = front ++ a :: back ∧ (∀ x ∈ front, P x) ∧ ¬ P a := by
  induction as with
  | nil => exact absurd (by simp) h
  | cons a as ih =>
    by_cases ha : P a
    · have hRest : ¬ ∀ x ∈ as, P x := by
        intro hAll
        apply h
        intro x hx
        rcases List.mem_cons.mp hx with rfl | hx
        · exact ha
        · exact hAll x hx
      obtain ⟨front, b, back, rfl, hFront, hb⟩ := ih hRest
      refine ⟨a :: front, b, back, rfl, ?_, hb⟩
      intro x hx
      rcases List.mem_cons.mp hx with rfl | hx
      · exact ha
      · exact hFront x hx
    · exact ⟨[], a, as, rfl, by simp, ha⟩

/-- Items that have one value if they pass a test and none if they do not are filtered. -/
theorem flatMap_ite_eq_map_filter (p : α → Prop) [DecidablePred p] (f : α → β) (as : List α) :
    (as.flatMap fun a => if p a then [f a] else []) = (as.filter p).map f := by
  induction as with
  | nil => rfl
  | cons a as ih =>
    rw [List.flatMap_cons, ih, List.filter_cons]
    by_cases ha : p a
    · rw [if_pos ha, if_pos (decide_eq_true ha), List.map_cons, List.singleton_append]
    · rw [if_neg ha, if_neg (by simpa using ha), List.nil_append]

/-- What is put behind the items of a list shows, unless it is nothing. -/
theorem flatMap_cons_eq_map_iff (f : α → β) (g : α → List β) (as : List α) :
    (as.flatMap fun a => f a :: g a) = as.map f ↔ ∀ a ∈ as, g a = [] := by
  have hLength (as : List α) : as.length ≤ (as.flatMap fun a => f a :: g a).length := by
    induction as with
    | nil => exact Nat.le_refl _
    | cons a as ih =>
      rw [List.flatMap_cons, List.length_append, List.length_cons, List.length_cons]
      omega
  induction as with
  | nil => simp
  | cons a as ih =>
    rw [List.flatMap_cons, List.map_cons, List.cons_append, List.cons_inj_right, List.forall_mem_cons]
    constructor
    · intro hEq
      have hSum := congrArg List.length hEq
      rw [List.length_append, List.length_map] at hSum
      have hNil : g a = [] := List.eq_nil_of_length_eq_zero (by have := hLength as; omega)
      rw [hNil, List.nil_append] at hEq
      exact ⟨hNil, ih.mp hEq⟩
    · rintro ⟨hNil, hRest⟩
      rw [hNil, List.nil_append, ih.mpr hRest]

/-- Where every item has a partner there is a list of partners. -/
theorem exists_forall₂ {R : α → β → Prop} {as : List α} (h : ∀ a ∈ as, ∃ b, R a b) :
    ∃ bs, List.Forall₂ R as bs := by
  induction as with
  | nil => exact ⟨[], .nil⟩
  | cons a as ih =>
    obtain ⟨b, hb⟩ := h a List.mem_cons_self
    obtain ⟨bs, hbs⟩ := ih fun a ha => h a (List.mem_cons_of_mem _ ha)
    exact ⟨b :: bs, .cons hb hbs⟩

/-- Partners of the same items are partners of each other. -/
theorem forall₂_of_common {γ : Type} {R : α → β → Prop} {S : α → γ → Prop} {as : List α}
    {bs : List β} {cs : List γ} (hR : List.Forall₂ R as bs) (hS : List.Forall₂ S as cs) :
    List.Forall₂ (fun b c => ∃ a ∈ as, R a b ∧ S a c) bs cs := by
  induction hR generalizing cs with
  | nil => cases hS; exact .nil
  | @cons a b as bs hab _ ih =>
    cases hS with
    | cons hac hS =>
      refine .cons ⟨a, List.mem_cons_self, hab, hac⟩ ((ih hS).imp ?_)
      rintro b c ⟨a', ha', h⟩
      exact ⟨a', List.mem_cons_of_mem _ ha', h⟩

/-- Lists that are related and ordered alike are related in order. -/
theorem forall₂_mergeSort {R : α → β → Prop} {before : α → α → Bool} {before' : β → β → Bool}
    {as : List α} {bs : List β} (h : List.Forall₂ R as bs)
    (hOrder : ∀ a ∈ as, ∀ a' ∈ as, ∀ b b', R a b → R a' b' → before a a' = before' b b') :
    List.Forall₂ R (as.mergeSort before) (bs.mergeSort before') := by
  obtain ⟨hLength, hPairs⟩ := List.forall₂_iff_zip.mp h
  -- both lists are sorted as one list of pairs
  let pairs := as.zip bs
  let beforePair (x y : α × β) : Bool := before x.1 y.1
  have hFirst : pairs.map Prod.fst = as := List.map_fst_zip (Nat.le_of_eq hLength)
  have hSecond : pairs.map Prod.snd = bs := List.map_snd_zip (Nat.le_of_eq hLength.symm)
  have hMem {x : α × β} (hx : x ∈ pairs) : x.1 ∈ as ∧ R x.1 x.2 :=
    ⟨(List.of_mem_zip hx).1, hPairs hx⟩
  have hSortFirst : (pairs.mergeSort beforePair).map Prod.fst = as.mergeSort before := by
    rw [← hFirst]
    exact List.map_mergeSort fun x _ y _ => rfl
  have hSortSecond : (pairs.mergeSort beforePair).map Prod.snd = bs.mergeSort before' := by
    rw [← hSecond]
    apply List.map_mergeSort
    intro x hx y hy
    exact hOrder x.1 (hMem hx).1 y.1 (hMem hy).1 x.2 y.2 (hMem hx).2 (hMem hy).2
  rw [← hSortFirst, ← hSortSecond, List.forall₂_map_left_iff, List.forall₂_map_right_iff,
    List.forall₂_same]
  intro x hx
  exact (hMem (List.mem_mergeSort.mp hx)).2

/-- What is made of the items passes a test that tells the items apart as it tells what is made of
    them. -/
theorem filter_flatMap_of_forall {p : α → Bool} {q : β → Bool} {f : α → List β} {as : List α}
    (h : ∀ a ∈ as, ∀ b ∈ f a, q b = p a) : (as.flatMap f).filter q = (as.filter p).flatMap f := by
  induction as with
  | nil => rfl
  | cons a as ih =>
    have hRest := ih fun x hx => h x (List.mem_cons_of_mem _ hx)
    have hHere := h a List.mem_cons_self
    rw [List.flatMap_cons, List.filter_append, hRest, List.filter_cons]
    cases ha : p a with
    | true =>
      have hAll : (f a).filter q = f a := List.filter_eq_self.mpr fun b hb => (hHere b hb).trans ha
      rw [hAll, if_pos rfl, List.flatMap_cons]
    | false =>
      have hNone : (f a).filter q = [] := by
        rw [List.filter_eq_nil_iff]
        intro b hb
        rw [hHere b hb, ha]
        exact Bool.false_ne_true
      rw [hNone, if_neg Bool.false_ne_true, List.nil_append]

/-- The partners of two lists that are put together come as the partners of the one and of the other. -/
theorem forall₂_append_left_iff {R : α → β → Prop} {front back : List α} {bs : List β} :
    List.Forall₂ R (front ++ back) bs ↔
      ∃ bs₁ bs₂, List.Forall₂ R front bs₁ ∧ List.Forall₂ R back bs₂ ∧ bs = bs₁ ++ bs₂ := by
  constructor
  · intro h
    induction front generalizing bs with
    | nil => exact ⟨[], bs, .nil, h, rfl⟩
    | cons a front ih =>
      obtain ⟨b, bs, hb, hbs, rfl⟩ := List.forall₂_cons_left_iff.mp h
      obtain ⟨bs₁, bs₂, h₁, h₂, rfl⟩ := ih hbs
      exact ⟨b :: bs₁, bs₂, .cons hb h₁, h₂, rfl⟩
  · rintro ⟨bs₁, bs₂, h₁, h₂, rfl⟩
    exact List.rel_append h₁ h₂

/-- The partners of a list that is put together around an item come as the partners of its pieces. -/
theorem forall₂_append_cons_left_iff {R : α → β → Prop} {pre post : List α} {a : α} {bs : List β} :
    List.Forall₂ R (pre ++ a :: post) bs ↔
      ∃ bs₁ b bs₂, List.Forall₂ R pre bs₁ ∧ R a b ∧ List.Forall₂ R post bs₂ ∧
        bs = bs₁ ++ b :: bs₂ := by
  rw [forall₂_append_left_iff]
  constructor
  · rintro ⟨bs₁, _, h₁, hBehind, rfl⟩
    obtain ⟨b, bs₂, hb, h₂, rfl⟩ := List.forall₂_cons_left_iff.mp hBehind
    exact ⟨bs₁, b, bs₂, h₁, hb, h₂, rfl⟩
  · rintro ⟨bs₁, b, bs₂, h₁, hb, h₂, rfl⟩
    exact ⟨bs₁, b :: bs₂, h₁, .cons hb h₂, rfl⟩

/-- A list and what becomes of it by a change to one item are related item by item. -/
theorem forall₂_modify {R : α → α → Prop} {f : α → α} (hRefl : ∀ a, R a a) (hf : ∀ a, R a (f a))
    (as : List α) (i : ℕ) : List.Forall₂ R as (as.modify i f) := by
  induction as generalizing i with
  | nil =>
    rw [List.modify_nil]
    exact .nil
  | cons a as ih =>
    cases i with
    | zero =>
      rw [List.modify_zero_cons]
      exact .cons (hf a) (List.forall₂_same.mpr fun a _ => hRefl a)
    | succ i =>
      rw [List.modify_succ_cons]
      exact .cons (hRefl a) (ih i)

/-- In ascending order each value is that of one item. -/
theorem filter_eq_singleton_of_pairwise {f : α → ℕ} {as : List α} {a : α}
    (h : as.Pairwise fun x y => f x < f y) (ha : a ∈ as) : as.filter (f · == f a) = [a] := by
  obtain ⟨front, back, rfl⟩ := List.append_of_mem ha
  obtain ⟨_, hBack, hFront⟩ := List.pairwise_append.mp h
  have hBefore : front.filter (f · == f a) = [] := by
    rw [List.filter_eq_nil_iff]
    intro x hx
    have := hFront x hx a List.mem_cons_self
    rw [beq_iff_eq]
    omega
  have hBehind : back.filter (f · == f a) = [] := by
    rw [List.filter_eq_nil_iff]
    intro x hx
    have := (List.pairwise_cons.mp hBack).1 x hx
    rw [beq_iff_eq]
    omega
  rw [List.filter_append, hBefore, List.nil_append, List.filter_cons_of_pos (by simp), hBehind]

/-- Lists with the same front have the same items there. -/
theorem take_and_getElem?_of_take_succ {xs ys : List α} {i : ℕ}
    (h : xs.take (i + 1) = ys.take (i + 1)) : xs.take i = ys.take i ∧ xs[i]? = ys[i]? := by
  constructor
  · have hTake := congrArg (List.take i) h
    rw [List.take_take, List.take_take, Nat.min_eq_left (Nat.le_succ i)] at hTake
    exact hTake
  · rw [← List.getElem?_take_of_lt (Nat.lt_succ_self i), h,
      List.getElem?_take_of_lt (Nat.lt_succ_self i)]

/-- The items that belong to the front are taken off, up to the first one that does not. -/
theorem takeWhile_append_of_head? {p : α → Bool} {front tail : List α}
    (hFront : ∀ a ∈ front, p a = true) (hTail : ∀ a ∈ tail.head?, p a = false) :
    (front ++ tail).takeWhile p = front ∧ (front ++ tail).dropWhile p = tail := by
  have hNone : tail.takeWhile p = [] ∧ tail.dropWhile p = tail := by
    cases tail with
    | nil => exact ⟨rfl, rfl⟩
    | cons a tail =>
      have ha : p a = false := hTail a rfl
      exact ⟨by rw [List.takeWhile_cons_of_neg (by rw [ha]; decide)],
        by rw [List.dropWhile_cons_of_neg (by rw [ha]; decide)]⟩
  constructor
  · rw [List.takeWhile_append_of_pos hFront, hNone.1, List.append_nil]
  · rw [List.dropWhile_append_of_pos hFront, hNone.2]

/-- An item of two lists is one of the first, or all of the first stands before it. -/
theorem append_eq_append_cons_cases {first second front back : List α} {a : α}
    (h : first ++ second = front ++ a :: back) :
    (∃ back', first = front ++ a :: back') ∨
      ∃ front', front = first ++ front' ∧ second = front' ++ a :: back := by
  rcases List.append_eq_append_iff.mp h with ⟨front', hFront, hSecond⟩ | ⟨behind, hFirst, hBehind⟩
  · exact .inr ⟨front', hFront, hSecond⟩
  · cases behind with
    | nil => exact .inr ⟨[], by simp [hFirst], by simpa using hBehind.symm⟩
    | cons b behind =>
      obtain ⟨rfl, -⟩ := List.cons.inj hBehind
      exact .inl ⟨behind, hFirst⟩

/-- An item of many lists is one of some list, and all of the lists before that one stands before. -/
theorem exists_of_flatMap_eq_append_cons {f : α → List β} {as : List α} {front back : List β} {b : β}
    (h : as.flatMap f = front ++ b :: back) :
    ∃ before a behind front' back', as = before ++ a :: behind ∧
      front = before.flatMap f ++ front' ∧ f a = front' ++ b :: back' := by
  induction as generalizing front with
  | nil => simp at h
  | cons a as ih =>
    rw [List.flatMap_cons] at h
    rcases append_eq_append_cons_cases h with ⟨back', hHere⟩ | ⟨front', rfl, hBehind⟩
    · exact ⟨[], a, as, front, back', rfl, rfl, hHere⟩
    · obtain ⟨before, a', behind, front'', back', rfl, rfl, hThere⟩ := ih hBehind
      exact ⟨a :: before, a', behind, front'', back', rfl, by simp, hThere⟩

end SnippetAudit
