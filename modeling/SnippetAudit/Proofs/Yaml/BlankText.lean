import Mathlib.Tactic.SplitIfs
import SnippetAudit.Proofs.Yaml.Tokens
import SnippetAudit.Text.Blank
import SnippetAudit.Yaml.Document

/-!
# Documents of blank texts

A text of blanks is no mapping. Not every blank separates tokens, so its document may well have a
scalar, but no blank is a sign of its own: what can be read are plain scalars and the end.

Results:
* `Scalar.readPlainParts_suffix`: behind a plain scalar an end of the text is left.
* `TokenQueue.IsIdle.readToken`, `TokenQueue.IsIdle.run`: what one token, and what all of them, keep.
* `GoalStack.isLoose_step`, `GoalStack.isScalarOrEnd_of_mem_run`: one step of the grammar, and all of
  them.
* `Document.exists_scalar_of_mem_parts`: each part of the document of a blank text is a scalar.
-/

namespace SnippetAudit.Yaml

open Text

/-! ## Plain scalars -/

namespace Scalar

theorem readGap_suffix {indent : Nat} {escaped broken : Bool} {rest : List Char} {m : Mark} {g : Gap}
    {cur : Cursor} (h : readGap indent escaped broken rest m = .ok (g, cur)) : cur.rest <:+ rest := by
  fun_induction readGap indent escaped broken rest m generalizing g cur with
  | case1 broken rest m ih =>
    obtain ⟨⟨_, _⟩, hRead, hEq⟩ := map_eq_ok_iff.mp h
    cases hEq
    exact (ih hRead).trans ⟨['\r', '\n'], rfl⟩
  | case2 broken c rest m _ _ ih =>
    obtain ⟨⟨_, _⟩, hRead, hEq⟩ := map_eq_ok_iff.mp h
    cases hEq
    exact (ih hRead).trans (List.suffix_cons _ _)
  | case3 => cases h
  | case4 c rest m _ _ _ _ ih => exact (ih h).trans (List.suffix_cons _ _)
  | case5 broken c rest m _ _ _ _ ih =>
    obtain ⟨⟨_, _⟩, hRead, hEq⟩ := map_eq_ok_iff.mp h
    cases hEq
    exact (ih hRead).trans (List.suffix_cons _ _)
  | case6 =>
    cases h
    exact List.suffix_refl _
  | case7 =>
    cases h
    exact List.suffix_refl _

theorem readPlainPart_suffix {inFlow : Bool} {rest text : List Char} {m : Mark} {cur : Cursor}
    (h : readPlainPart inFlow rest m = .ok (text, cur)) : cur.rest <:+ rest := by
  fun_induction readPlainPart inFlow rest m generalizing text cur with
  | case1 => cases h
  | case2 =>
    cases h
    exact List.suffix_refl _
  | case3 c rest m _ _ ih =>
    obtain ⟨⟨_, _⟩, hRead, hEq⟩ := map_eq_ok_iff.mp h
    cases hEq
    exact (ih hRead).trans (List.suffix_cons _ _)
  | case4 =>
    cases h
    exact List.suffix_refl _

theorem readPlainParts_suffix {inFlow : Bool} {indent fuel : Nat} {gap : Gap} {done plain : Plain}
    (h : readPlainParts inFlow indent fuel gap done = .ok plain) :
    plain.after.rest <:+ done.after.rest := by
  induction fuel generalizing gap done plain with
  | zero =>
    cases h
    exact List.suffix_refl _
  | succ fuel ih =>
    rw [readPlainParts] at h
    split at h
    · cases h
      exact List.suffix_refl _
    split at h
    · cases h
      exact List.suffix_refl _
    obtain ⟨⟨part, cur⟩, hPart, h⟩ := bind_eq_ok_iff.mp h
    simp only at h
    split at h
    · cases h
      exact List.suffix_refl _
    obtain ⟨⟨next, after⟩, hGap, h⟩ := bind_eq_ok_iff.mp h
    have hAfter : after.rest <:+ done.after.rest :=
      (readGap_suffix hGap).trans (readPlainPart_suffix hPart)
    simp only at h
    split at h
    · cases h
      exact hAfter
    · obtain ⟨more, hMore, h⟩ := bind_eq_ok_iff.mp h
      cases h
      exact (ih hMore).trans hAfter

end Scalar

/-! ## Tokens -/

namespace TokenQueue

variable {s s' : TokenQueue}

/-- The tokens of a text of blanks: its end, and scalars before it. -/
def IsLoose (token : Token) : Prop :=
  token.kind = .streamEnd ∨ ∃ text plain, token.kind = .scalar text plain

/-- Nothing but blanks is left, and no token but scalars and the end has been met. -/
structure IsIdle (s : TokenQueue) : Prop where
  rest : ∀ c ∈ s.cursor.rest, isBlank c = true
  queue : ∀ token ∈ s.queue, IsLoose token
  blocks : s.blocks = []

namespace IsIdle

theorem with_keys (h : IsIdle s) (keys : List (Option KeyStart)) : IsIdle { s with keys } :=
  ⟨h.rest, h.queue, h.blocks⟩

theorem push {kind : Token.Kind} {start stop : Mark} (h : IsIdle s)
    (hKind : IsLoose ⟨kind, start, stop⟩) : IsIdle (s.push kind start stop) where
  rest := h.rest
  queue := List.forall_mem_append.mpr ⟨h.queue, List.forall_mem_singleton.mpr hKind⟩
  blocks := h.blocks

theorem readEnd (h : IsIdle s) (hRead : s.readEnd = .ok s') : IsIdle s' := by
  have hClose (cursor : Cursor) :
      ({ s with cursor } : TokenQueue).closeBlocks none = { s with cursor } :=
    closeBlocks_eq { s with cursor } none h.blocks
  obtain ⟨t, hDrop, hEq⟩ := bind_eq_ok_iff.mp hRead
  rw [hClose] at hDrop
  obtain ⟨keys, rfl⟩ := dropKey_eq hDrop
  cases hEq
  exact push ⟨h.rest, h.queue, h.blocks⟩ (.inl rfl)

theorem readPlain (h : IsIdle s) (hRead : s.readPlain = .ok s') : IsIdle s' := by
  obtain ⟨t, hSave, hRead⟩ := bind_eq_ok_iff.mp hRead
  obtain ⟨keys, rfl⟩ := saveKey_eq hSave
  obtain ⟨plain, hPlain, hEq⟩ := bind_eq_ok_iff.mp hRead
  cases hEq
  have hSuffix : plain.after.rest <:+ s.cursor.rest := Scalar.readPlainParts_suffix hPlain
  exact push ⟨fun c hc => h.rest c (hSuffix.mem hc), h.queue, h.blocks⟩ (.inr ⟨_, _, rfl⟩)

theorem skipped (h : IsIdle s) {fuel : Nat} (hDrop : (s.skipSeparation fuel).dropStaleKeys = .ok s') :
    IsIdle s' := by
  obtain ⟨keys, rfl⟩ := dropStaleKeys_eq hDrop
  obtain ⟨hSuffix, cursor, keyAllowed, hSkip⟩ := skipSeparation_suffix fuel s
  rw [hSkip] at hSuffix ⊢
  exact ⟨fun c hc => h.rest c (hSuffix.mem hc), h.queue, h.blocks⟩

theorem readToken (h : IsIdle s) (hRead : s.readToken = .ok s') : IsIdle s' := by
  obtain ⟨t, hDrop, hRead⟩ := bind_eq_ok_iff.mp hRead
  have hIdle : IsIdle t := h.skipped hDrop
  rw [closeBlocks_eq t _ hIdle.blocks] at hRead
  simp only at hRead
  split at hRead
  · exact hIdle.readEnd hRead
  · rename_i c rest hRest
    have hBlank : isBlank c = true := hIdle.rest c (by rw [hRest]; exact List.mem_cons_self)
    -- a blank is no sign of any token, so it starts a plain scalar or nothing
    have hNe (d : Char) (hd : isBlank d = false) : c ≠ d := by
      rintro rfl
      rw [hd] at hBlank
      cases hBlank
    have hMarker : atDocumentMarker (c :: rest) = false :=
      atDocumentMarker_of_ne (hNe '-' (by decide)) (hNe '.' (by decide)) rest
    simp only [hMarker, hNe '%' (by decide), hNe '[' (by decide), hNe '\x7b' (by decide),
      hNe ']' (by decide), hNe '\x7d' (by decide), hNe ',' (by decide), hNe '-' (by decide),
      hNe '?' (by decide), hNe ':' (by decide), hNe '*' (by decide), hNe '&' (by decide),
      hNe '!' (by decide), hNe '|' (by decide), hNe '>' (by decide), hNe '\'' (by decide),
      hNe '"' (by decide), beq_eq_false_iff_ne.mpr, ne_eq, not_false_eq_true, Bool.and_false,
      Bool.false_eq_true, false_and, if_false] at hRead
    split at hRead
    · exact hIdle.readPlain hRead
    · cases hRead

theorem next {token : Option Token} (h : IsIdle s) (hNext : s.next = .ok (token, s')) :
    IsIdle s' ∧ ∀ t ∈ token, IsLoose t := by
  unfold TokenQueue.next at hNext
  split at hNext
  · obtain ⟨t, hRead, hEq⟩ := map_eq_ok_iff.mp hNext
    cases hEq
    exact ⟨h.readToken hRead, by simp⟩
  · rename_i first queue hQueue
    obtain ⟨t, hDrop, hNext⟩ := bind_eq_ok_iff.mp hNext
    obtain ⟨keys, rfl⟩ := dropStaleKeys_eq hDrop
    split at hNext
    · obtain ⟨t, hRead, hEq⟩ := map_eq_ok_iff.mp hNext
      cases hEq
      exact ⟨(h.with_keys keys).readToken hRead, by simp⟩
    · cases hNext
      obtain ⟨hFirst, hRest⟩ := List.forall_mem_cons.mp (hQueue ▸ h.queue)
      exact ⟨⟨h.rest, hRest, h.blocks⟩, by simpa using hFirst⟩

theorem run (h : IsIdle s) (fuel : Nat) : ∀ token ∈ (s.run fuel).1, IsLoose token := by
  induction fuel generalizing s with
  | zero => simp [TokenQueue.run]
  | succ fuel ih =>
    rw [TokenQueue.run]
    cases hNext : s.next with
    | error fault => simp
    | ok result =>
      obtain ⟨token, t⟩ := result
      obtain ⟨hIdle, hToken⟩ := h.next hNext
      cases token with
      | none => exact ih hIdle
      | some token =>
        simp only
        split
        · exact List.forall_mem_singleton.mpr (hToken token rfl)
        · exact List.forall_mem_cons.mpr ⟨hToken token rfl, ih hIdle⟩

end IsIdle

end TokenQueue

theorem Token.mem_of_mem_readable {size : Nat} {piece text : List Char} {c : Char}
    (h : c ∈ readable size piece text) : c ∈ piece ∨ c ∈ text := by
  induction text generalizing size piece with
  | nil => exact .inl (List.mem_reverse.mp h)
  | cons d rest ih =>
    rw [readable] at h
    split at h
    · split at h
      · rcases List.mem_append.mp h with h | h
        · exact .inl (List.mem_reverse.mp h)
        · rcases ih h with h | h
          · rw [List.mem_singleton.mp h]
            exact .inr List.mem_cons_self
          · exact .inr (List.mem_cons_of_mem _ h)
      · rcases ih h with h | h
        · rcases List.mem_cons.mp h with rfl | h
          · exact .inr List.mem_cons_self
          · exact .inl h
        · exact .inr (List.mem_cons_of_mem _ h)
    · split at h
      · exact .inl (List.mem_reverse.mp h)
      · cases h

/-- The tokens of a blank text are scalars and the end. -/
theorem Token.isLoose_of_mem_ofText {text : List Char} (h : isAllBlank text = true) :
    ∀ token ∈ (Token.ofText text).1, TokenQueue.IsLoose token := by
  have hBlank : ∀ c ∈ text, isBlank c = true := List.all_eq_true.mp h
  have hStart {text : List Char} (h : ∀ c ∈ text, isBlank c = true) :
      TokenQueue.IsIdle (.start text) :=
    ⟨h, by simp [TokenQueue.start], rfl⟩
  unfold Token.ofText
  split
  · exact (hStart hBlank).run _
  · intro token hToken
    have hReadable : ∀ c ∈ readable 0 [] text, isBlank c = true := by
      intro c hc
      rcases mem_of_mem_readable hc with hc | hc
      · cases hc
      · exact hBlank c hc
    exact (hStart hReadable).run _ token ((List.takeWhile_sublist _).mem hToken)

/-! ## Events -/

namespace GoalStack

/-- The goals that scalars and the end of a text leave. -/
inductive IsLoose : Goal → Prop
  | document (first : Bool) : IsLoose (.document first)
  | node : IsLoose (.anyNode .block)
  | documentEnd : IsLoose .documentEnd

/-- A scalar without an anchor and a tag, or the end of a document. -/
def IsScalarOrEnd (e : Event) : Prop :=
  e.kind = .documentEnd ∨ ∃ text plain, e.kind = .scalar .none text plain

variable {p : GoalStack} {goal : Goal} {goals : List Goal} {token : Token} {move : Move}

theorem isLoose_step (hGoals : p.goals = goal :: goals) (hGoal : IsLoose goal)
    (hRest : ∀ g ∈ goals, IsLoose g) (hToken : TokenQueue.IsLoose token)
    (h : p.step goal token = .ok move) :
    (∀ e ∈ move.event, IsScalarOrEnd e) ∧ ∀ g ∈ move.left.goals, IsLoose g := by
  obtain ⟨kind, start, stop⟩ := token
  have hLoose {front : List Goal} (hFront : ∀ g ∈ front, IsLoose g) :
      ∀ g ∈ (p.goOn front).goals, IsLoose g := by
    rw [goOn, hGoals, List.tail_cons]
    exact List.forall_mem_append.mpr ⟨hFront, hRest⟩
  cases hGoal with
  | document first =>
    rcases hToken with rfl | ⟨text, plain, rfl⟩
    · cases h
      exact ⟨by simp [take], hLoose (by simp)⟩
    · cases first with
      | false => cases h
      | true =>
        cases h
        exact ⟨by simp [leave], hLoose (by simp [IsLoose.node, IsLoose.documentEnd])⟩
  | node =>
    rcases hToken with rfl | ⟨text, plain, rfl⟩
    · cases h
    · cases h
      refine ⟨?_, hLoose (by simp)⟩
      intro e he
      cases he
      exact .inr ⟨text, plain, rfl⟩
  | documentEnd =>
    have hEvent : ∀ e ∈ some (Event.mk .documentEnd start), IsScalarOrEnd e := by
      intro e he
      cases he
      exact .inl rfl
    have hNext : ∀ g ∈ [Goal.document false], IsLoose g :=
      List.forall_mem_singleton.mpr (.document false)
    rcases hToken with rfl | ⟨text, plain, rfl⟩
    · cases h
      exact ⟨hEvent, hLoose hNext⟩
    · cases h
      exact ⟨hEvent, hLoose hNext⟩

theorem isScalarOrEnd_of_mem_run {fault : Fault} {fuel : Nat} {tokens : List Token}
    (hGoals : ∀ g ∈ p.goals, IsLoose g) (hTokens : ∀ t ∈ tokens, TokenQueue.IsLoose t) :
    ∀ e ∈ (p.run fault fuel tokens).1, IsScalarOrEnd e := by
  induction fuel generalizing p tokens with
  | zero => simp [run]
  | succ fuel ih =>
    unfold run
    split
    · simp
    · simp
    · rename_i goal goals token rest hEq
      rw [hEq] at hGoals
      obtain ⟨hGoal, hRest⟩ := List.forall_mem_cons.mp hGoals
      obtain ⟨hToken, hBehind⟩ := List.forall_mem_cons.mp hTokens
      split
      · simp
      · rename_i move hStep
        obtain ⟨hEvent, hLeft⟩ := isLoose_step hEq hGoal hRest hToken hStep
        simp only
        refine List.forall_mem_append.mpr ⟨fun e he => hEvent e (Option.mem_toList.mp he), ih hLeft ?_⟩
        split
        · exact hBehind
        · exact hTokens

end GoalStack

/-! ## The document -/

theorem Anchors.mem_of_mem_collect {place : Nat} {a : Anchors} {events : List Event}
    {numbers : List (List Char × Nat)} {e : Event} (h : (numbers, e) ∈ (collect place a events).2.1) :
    e ∈ events := by
  induction events generalizing place a with
  | nil => cases h
  | cons first rest ih =>
    unfold collect at h
    simp only at h
    split_ifs at h
    · cases h
    · rcases List.mem_cons.mp h with h | h
      · cases h
        exact List.mem_cons_self
      · exact List.mem_cons_of_mem _ (ih h)

theorem Event.isScalarOrEnd_of_mem_ofText {text : List Char} (h : isAllBlank text = true) :
    ∀ e ∈ (Event.ofText text).1, GoalStack.IsScalarOrEnd e :=
  GoalStack.isScalarOrEnd_of_mem_run (List.forall_mem_singleton.mpr (GoalStack.IsLoose.document true))
    (Token.isLoose_of_mem_ofText h)

/-- Each part of the document of a blank text is a scalar. -/
theorem Document.exists_scalar_of_mem_parts {text : List Char} (h : isAllBlank text = true) :
    ∀ part ∈ (Document.ofText text).parts, ∃ tag chars plain, part.kind = .scalar tag chars plain := by
  intro part hPart
  obtain ⟨⟨numbers, e⟩, hSeen, hEq⟩ := List.mem_filterMap.mp hPart
  have hEvent : e ∈ (Event.ofText text).1 :=
    (List.takeWhile_sublist _).mem (Anchors.mem_of_mem_collect hSeen)
  obtain ⟨kind, mark⟩ := e
  rcases Event.isScalarOrEnd_of_mem_ofText h _ hEvent with rfl | ⟨chars, plain, rfl⟩
  · cases hEq
  · cases hEq
    exact ⟨_, _, _, rfl⟩

end SnippetAudit.Yaml
