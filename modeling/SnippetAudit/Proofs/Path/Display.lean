import SnippetAudit.Proofs.Path.Join

/-!
# What lies below a root in a report

A path is a root with names joined to it, and a report shows of it three dots for the root and the
names, whatever way the root is written. Joining works on the bytes of a path and showing on its
parts, so the two meet in the parts of the root: a name joined to it is a part of its own, behind
them or in the place of an empty last one.

Results:
* `exists_body_joinAll`: the parts of a path with names joined to it.
* `below?_joinAll`: what lies below the root are the names that are joined to it.
* `display_joinAll`: what is shown does not depend on the root.
-/

namespace SnippetAudit.Path

open Text

/-! ## Parts -/

/-- A name behind open bytes takes up the last part, which was empty. -/
theorem exists_splitParts_append {bytes name : List UInt8} (h : separator ∉ name)
    (hOpen : IsOpen bytes) :
    ∃ parts, splitParts bytes = parts ++ [[]] ∧ splitParts (bytes ++ name) = parts ++ [name] := by
  rcases isOpen_iff.mp hOpen with rfl | ⟨front, rfl⟩
  · exact ⟨[], rfl, splitParts_eq_singleton h⟩
  · refine ⟨splitParts front, splitParts_append_separator front [], ?_⟩
    rw [List.append_assoc, List.singleton_append, splitParts_append_separator,
      splitParts_eq_singleton h]

theorem not_isOpen_of_isName {name : List UInt8} (h : IsName name) (bytes : List UInt8) :
    ¬ IsOpen (bytes ++ name) := by
  intro hOpen
  rcases isOpen_iff.mp (isOpen_of_append hOpen) with hNil | ⟨front, hFront⟩
  · exact h.ne_nil hNil
  · exact h.separator_not_mem (hFront ▸ List.mem_append_right _ List.mem_cons_self)

theorem not_isOpen_join (p : Path) {name : List UInt8} (h : IsName name) :
    ¬ IsOpen (p.join ⟨name⟩).bytes := by
  by_cases hOpen : IsOpen p.bytes
  · rw [join_of_isOpen h hOpen]
    exact not_isOpen_of_isName h p.bytes
  · rw [join_of_not_isOpen h hOpen]
    have hSplit : p.bytes ++ separator :: name = (p.bytes ++ [separator]) ++ name := by
      rw [List.append_assoc, List.singleton_append]
    rw [hSplit]
    exact not_isOpen_of_isName h _

/-- A name that is joined to a path is its last part. It takes up the part before it if that is
    empty and the path is open. -/
theorem exists_body_join (p : Path) {name : List UInt8} (h : IsName name) :
    (p.join ⟨name⟩).cut.1 = p.cut.1 ∧
      ∃ parts, (p.join ⟨name⟩).body = parts ++ [name] ∧
        p.body = if IsOpen p.bytes then parts ++ [[]] else parts := by
  by_cases hOpen : IsOpen p.bytes
  · rw [join_of_isOpen h hOpen]
    by_cases hNil : p.bytes = []
    · have hp : p = ⟨[]⟩ := by rw [← hNil]
      rw [hp, List.nil_append, body, cut_of_isName h, splitParts_eq_singleton h.separator_not_mem]
      exact ⟨rfl, [], rfl, rfl⟩
    · have hCut : cut ⟨p.bytes ++ name⟩ = (p.cut.1, p.cut.2 ++ name) := by
        apply cut_append hNil
        intro hHere
        rw [hHere] at hOpen
        exact absurd hOpen (by decide)
      obtain ⟨parts, hParts, hName⟩ := exists_splitParts_append h.separator_not_mem (isOpen_cut hOpen)
      rw [body, hCut]
      exact ⟨rfl, parts, hName, by rw [if_pos hOpen, ← hParts]; rfl⟩
  · have hNil : p.bytes ≠ [] := fun hNil => hOpen (hNil ▸ rfl)
    rw [join_of_not_isOpen h hOpen, body, cut_append hNil fun _ => ⟨name, rfl⟩]
    refine ⟨rfl, p.body, ?_, (if_neg hOpen).symm⟩
    rw [splitParts_append_separator, splitParts_eq_singleton h.separator_not_mem]
    rfl

/-- The parts of a path with names joined to it: those of the path, but for an empty last one that the
    first name takes up, and the names. -/
theorem exists_body_joinAll (p : Path) {names : List (List UInt8)} (h : ∀ n ∈ names, IsName n)
    (hNil : names ≠ []) :
    (p.joinAll names).cut.1 = p.cut.1 ∧
      ∃ parts, (p.joinAll names).body = parts ++ names ∧
        p.body = if IsOpen p.bytes then parts ++ [[]] else parts := by
  induction names using List.reverseRecOn with
  | nil => exact absurd rfl hNil
  | append_singleton names name ih =>
    obtain ⟨hNames, hName⟩ := List.forall_mem_append.mp h
    have hLast : IsName name := hName name List.mem_cons_self
    rw [joinAll_concat]
    by_cases hFirst : names = []
    · rw [hFirst]
      exact exists_body_join p hLast
    · obtain ⟨hLead, parts, hBody, hParts⟩ := ih hNames hFirst
      obtain ⟨hLead', parts', hBody', hParts'⟩ := exists_body_join (p.joinAll names) hLast
      -- behind a name the path is not open
      have hClosed : ¬ IsOpen (p.joinAll names).bytes := by
        obtain ⟨front, last, hSplit⟩ := List.eq_nil_or_concat names |>.resolve_left hFirst
        rw [hSplit, List.concat_eq_append, joinAll_concat]
        apply not_isOpen_join
        exact hNames last (by rw [hSplit, List.concat_eq_append]; simp)
      rw [if_neg hClosed, hBody] at hParts'
      refine ⟨hLead'.trans hLead, parts, ?_, hParts⟩
      rw [hBody', ← hParts', List.append_assoc]

/-! ## What lies below -/

theorem isIdle_iff {part : List UInt8} : isIdle part = true ↔ partComponent? part = none := by
  rw [isIdle, Option.isNone_iff_eq_none]

theorem isIdle_of_isName {name : List UInt8} (h : IsName name) : isIdle name = false := by
  rw [isIdle, partComponent?_of_isName h]
  rfl

/-- Taking away as many components as some parts have takes away the parts, but for idle ones. -/
theorem dropWhile_dropComponents (parts rest : List (List UInt8)) :
    (dropComponents (parts.filterMap partComponent?).length (parts ++ rest)).dropWhile isIdle =
      rest.dropWhile isIdle := by
  induction parts with
  | nil =>
    rw [List.filterMap_nil, List.length_nil, dropComponents]
    rfl
  | cons part parts ih =>
    cases hPart : partComponent? part with
    | some component =>
      have hBusy : isIdle part = false := by rw [isIdle, hPart]; rfl
      rw [List.filterMap_cons_some hPart, List.length_cons, List.cons_append, dropComponents, hBusy,
        if_neg Bool.false_ne_true, ih]
    | none =>
      have hIdle : isIdle part = true := isIdle_iff.mpr hPart
      rw [List.filterMap_cons_none hPart, List.cons_append]
      cases hCount : (parts.filterMap partComponent?).length with
      | zero =>
        rw [hCount, dropComponents] at ih
        rw [dropComponents, List.dropWhile_cons_of_pos hIdle, ih]
      | succ n =>
        rw [hCount] at ih
        rw [dropComponents, if_pos hIdle, ih]

theorem dropWhile_isIdle_names {names : List (List UInt8)} (h : ∀ n ∈ names, IsName n) :
    names.dropWhile isIdle = names := by
  cases names with
  | nil => rfl
  | cons name names =>
    rw [List.dropWhile_cons_of_neg]
    rw [isIdle_of_isName (h name List.mem_cons_self)]
    exact Bool.false_ne_true

theorem dropIdleEnd_names {names : List (List UInt8)} (h : ∀ n ∈ names, IsName n) :
    dropIdleEnd names = names := by
  rw [dropIdleEnd, dropWhile_isIdle_names fun n hn => h n (List.mem_reverse.mp hn), List.reverse_reverse]

/-- Only a path that is written with nothing has no components. -/
theorem bytes_eq_nil_of_components_eq_nil {p : Path} (h : p.components = []) : p.bytes = [] := by
  obtain ⟨hLead, hBody⟩ := List.append_eq_nil_iff.mp h
  have hNone : p.cut.1 = .none := by
    cases hCut : p.cut.1 with
    | none => rfl
    | root => rw [hCut] at hLead; cases hLead
    | here => rw [hCut] at hLead; cases hLead
  have hBytes : p.cut.2 = p.bytes := by
    have hBoth := cut_bytes p
    rw [hNone] at hBoth
    exact hBoth
  obtain ⟨part, parts, hParts⟩ := List.exists_cons_of_ne_nil (splitParts_ne_nil p.bytes)
  have hJoin : p.bytes = joinParts (part :: parts) := by rw [← hParts, joinParts_splitParts]
  have hIdle : part = [] ∨ part = [0x2E] := by
    rw [body, hBytes, hParts, List.filterMap_eq_nil_iff] at hBody
    have hPart := hBody part List.mem_cons_self
    by_contra hNot
    rw [partComponent?, if_neg hNot] at hPart
    split at hPart <;> cases hPart
  -- with an idle first part and anything behind it the path would have a lead
  rcases hIdle with rfl | rfl
  · cases parts with
    | nil => exact hJoin
    | cons q qs =>
      rw [cut, hJoin] at hNone
      cases hNone
  · cases parts with
    | nil =>
      rw [cut, hJoin] at hNone
      cases hNone
    | cons q qs =>
      rw [cut, hJoin] at hNone
      cases hNone

/-- What lies below the root are the names that are joined to it. -/
theorem below?_joinAll (root : Path) {names : List (List UInt8)} (h : ∀ n ∈ names, IsName n) :
    (root.joinAll names).below? root = some ⟨joinParts names⟩ := by
  have hPrefix : root.components.isPrefixOf (root.joinAll names).components = true := by
    rw [List.isPrefixOf_iff_prefix, components_joinAll root h]
    exact List.prefix_append _ _
  rw [below?, if_pos hPrefix]
  by_cases hEmpty : root.components.isEmpty = true
  · rw [if_pos hEmpty]
    have hBytes := bytes_eq_nil_of_components_eq_nil (List.isEmpty_iff.mp hEmpty)
    obtain rfl : root = ⟨[]⟩ := by rw [← hBytes]
    by_cases hNil : names = []
    · rw [hNil]
      rfl
    · obtain ⟨hLead, parts, hBody, hParts⟩ := exists_body_joinAll ⟨[]⟩ h hNil
      have hNone : parts = [] := by
        have hOne : [[]] = parts ++ [[]] := hParts
        have hLength := congrArg List.length hOne
        rw [List.length_append] at hLength
        exact List.length_eq_zero_iff.mp (by simpa using hLength)
      rw [hLead, hBody, hNone, List.nil_append, dropIdleEnd_names h]
      rfl
  · have hTaken (p : Path) (hLead : p.cut.1 = root.cut.1) :
        root.components.length - p.cut.1.components.length =
          (root.body.filterMap partComponent?).length := by
      rw [hLead, components, List.length_append, Nat.add_sub_cancel_left]
    rw [if_neg hEmpty]
    by_cases hNil : names = []
    · have hRest := dropWhile_dropComponents root.body []
      rw [List.append_nil] at hRest
      dsimp only
      rw [hNil, show root.joinAll [] = root from rfl, hTaken root rfl, hRest]
      rfl
    · obtain ⟨hLead, parts, hBody, hParts⟩ := exists_body_joinAll root h hNil
      have hSame : root.body.filterMap partComponent? = parts.filterMap partComponent? := by
        rw [hParts]
        split
        · rw [List.filterMap_append]
          exact List.append_nil _
        · rfl
      dsimp only
      rw [hTaken _ hLead, hSame, hBody, dropWhile_dropComponents, dropWhile_isIdle_names h,
        dropIdleEnd_names h]

/-! ## What is shown -/

theorem joinParts_cons (part : List UInt8) (parts : List (List UInt8)) :
    joinParts (part :: parts) = part ++ parts.flatMap (separator :: ·) := by
  induction parts generalizing part with
  | nil => rw [joinParts, List.flatMap_nil, List.append_nil]
  | cons next parts ih => rw [joinParts, ih, List.flatMap_cons, List.cons_append]; simp

/-- Names that are text are joined as text. -/
theorem joinParts_encode (text : List Char) (texts : List (List Char)) :
    joinParts ((text :: texts).map Utf8.encode) = Utf8.encode (text ++ texts.flatMap ('/' :: ·)) := by
  have hBehind : (texts.map Utf8.encode).flatMap (separator :: ·) =
      Utf8.encode (texts.flatMap ('/' :: ·)) := by
    induction texts with
    | nil => rfl
    | cons next texts ih =>
      rw [List.map_cons, List.flatMap_cons, List.flatMap_cons, ih, Utf8.encode_append]
      rfl
  rw [List.map_cons, joinParts_cons, hBehind, Utf8.encode_append]

/-- A path below the root is shown with three dots in the place of the root, whatever the root is. -/
theorem display_joinAll (root : Path) {texts : List (List Char)} (h : ∀ t ∈ texts, IsTextName t) :
    (root.joinAll (texts.map Utf8.encode)).display root =
      ['.', '.', '.'] ++ texts.flatMap ('/' :: ·) := by
  rw [display, below?_joinAll root (isName_of_mem_map h)]
  cases texts with
  | nil => rfl
  | cons text texts =>
    rw [joinParts_encode]
    have hSome : Utf8.encode (text ++ texts.flatMap ('/' :: ·)) ≠ [] := by
      rw [Utf8.encode_append]
      intro hNil
      exact (h text List.mem_cons_self).isName.ne_nil (List.append_eq_nil_iff.mp hNil).1
    dsimp only
    rw [if_neg (by simpa using hSome), lossyText, Utf8.decodeLossy_encode]
    rfl

end SnippetAudit.Path
