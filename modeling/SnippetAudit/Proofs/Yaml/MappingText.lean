import SnippetAudit.Proofs.Yaml.MappingTokens
import SnippetAudit.Yaml.Document

/-!
# The document of a mapping that is written in braces

The tokens of a mapping that is written in braces lead through the grammar entry by entry, and the
document of its text is that mapping: a part for each key and each value, in the order in which they
are written, and nothing behind its end.

Results:
* `GoalStack.gives_entry`, `GoalStack.gives_entries`: the events of one entry, and of all of them.
* `Event.ofText_mappingText`: the events of a mapping.
* `Anchors.collect_eq`: events without anchors and aliases are all kept.
* `Document.ofText_mappingText`: the document of a mapping.
-/

namespace SnippetAudit.Yaml

/-! ## Events -/

namespace GoalStack

variable {p q r : GoalStack} {tokens tokens' : List Token} {kinds kinds' : List Event.Kind}

/-- Tokens lead from one stack of goals to another and give events of some kinds. Each token is looked
    at a few times at most. -/
def Gives (p : GoalStack) (tokens : List Token) (kinds : List Event.Kind) (q : GoalStack) : Prop :=
  ∃ (steps : ℕ) (events : List Event), steps ≤ 8 * tokens.length ∧ events.map Event.kind = kinds ∧
    ∀ fault fuel rest, p.run fault (fuel + steps) (tokens ++ rest) =
      (events ++ (q.run fault fuel rest).1, (q.run fault fuel rest).2)

theorem gives_nil (p : GoalStack) : Gives p [] [] p := ⟨0, [], Nat.le_refl _, rfl, fun _ _ _ => rfl⟩

theorem Gives.append (h : Gives p tokens kinds q) (h' : Gives q tokens' kinds' r) :
    Gives p (tokens ++ tokens') (kinds ++ kinds') r := by
  obtain ⟨n, events, hSteps, hKinds, hRun⟩ := h
  obtain ⟨n', events', hSteps', hKinds', hRun'⟩ := h'
  refine ⟨n' + n, events ++ events', ?_, by rw [List.map_append, hKinds, hKinds'], ?_⟩
  · rw [List.length_append]
    omega
  · intro fault fuel rest
    rw [List.append_assoc, ← Nat.add_assoc, hRun, hRun', List.append_assoc]

/-- The kinds of the events of an entry. -/
def entryEvents (entry : List Char × List Char) : List Event.Kind :=
  [.scalar .none entry.1 false, .scalar .none entry.2 false]

/-- The kinds of the events of a mapping. -/
def mappingEvents (entries : List (List Char × List Char)) : List Event.Kind :=
  [.mappingStart .none] ++ (entries.flatMap entryEvents ++ [.mappingEnd])

/-- The goals in the braces of a mapping that is the root. -/
def inMapping : GoalStack := ⟨[.flowKey true, .documentEnd], false, []⟩

theorem gives_start (h : tokens.map Token.kind = [.documentStart, .openMapping]) :
    Gives start tokens [.mappingStart .none] inMapping := by
  obtain ⟨⟨_, a₁, b₁⟩, _, rfl, rfl, h₁⟩ := List.map_eq_cons_iff.mp h
  obtain ⟨⟨_, a₂, b₂⟩, _, rfl, rfl, h₂⟩ := List.map_eq_cons_iff.mp h₁
  obtain rfl := List.map_eq_nil_iff.mp h₂
  exact ⟨4, [⟨.mappingStart .none, a₂⟩], by simp, rfl, fun _ _ _ => rfl⟩

theorem gives_entry {entry : List Char × List Char}
    (h : tokens.map Token.kind = TokenQueue.entryKinds entry) :
    Gives inMapping tokens (entryEvents entry) inMapping := by
  obtain ⟨⟨_, a₁, b₁⟩, _, rfl, rfl, h₁⟩ := List.map_eq_cons_iff.mp h
  obtain ⟨⟨_, a₂, b₂⟩, _, rfl, rfl, h₂⟩ := List.map_eq_cons_iff.mp h₁
  obtain ⟨⟨_, a₃, b₃⟩, _, rfl, rfl, h₃⟩ := List.map_eq_cons_iff.mp h₂
  obtain ⟨⟨_, a₄, b₄⟩, _, rfl, rfl, h₄⟩ := List.map_eq_cons_iff.mp h₃
  obtain ⟨⟨_, a₅, b₅⟩, _, rfl, rfl, h₅⟩ := List.map_eq_cons_iff.mp h₄
  obtain rfl := List.map_eq_nil_iff.mp h₅
  -- three steps for the key, two for its text, and as many for the value; one for the separator
  exact ⟨7, [⟨.scalar .none entry.1 false, a₂⟩, ⟨.scalar .none entry.2 false, a₄⟩], by simp, rfl,
    fun _ _ _ => rfl⟩

theorem gives_entries {entries : List (List Char × List Char)}
    (h : tokens.map Token.kind = entries.flatMap TokenQueue.entryKinds) :
    Gives inMapping tokens (entries.flatMap entryEvents) inMapping := by
  induction entries generalizing tokens with
  | nil =>
    obtain rfl := List.map_eq_nil_iff.mp h
    exact gives_nil _
  | cons entry entries ih =>
    obtain ⟨ts, us, rfl, hEntry, hEntries⟩ := List.map_eq_append_iff.mp h
    exact (gives_entry hEntry).append (ih hEntries)

/-- The closing brace and the end of the text end the events. -/
theorem run_close (h : tokens.map Token.kind = [.closeMapping, .streamEnd]) (fault : Fault) (n : ℕ) :
    ∃ events : List Event, events.map Event.kind = [.mappingEnd, .documentEnd] ∧
      inMapping.run fault (n + 4) tokens = (events, none) := by
  obtain ⟨⟨_, a₁, b₁⟩, _, rfl, rfl, h₁⟩ := List.map_eq_cons_iff.mp h
  obtain ⟨⟨_, a₂, b₂⟩, _, rfl, rfl, h₂⟩ := List.map_eq_cons_iff.mp h₁
  obtain rfl := List.map_eq_nil_iff.mp h₂
  exact ⟨[⟨.mappingEnd, a₁⟩, ⟨.documentEnd, a₂⟩], rfl, rfl⟩

end GoalStack

/-- The events of a mapping. -/
theorem Event.ofText_mappingText (entries : List (List Char × List Char)) :
    ∃ events : List Event,
      events.map Event.kind = GoalStack.mappingEvents entries ++ [.documentEnd] ∧
      Event.ofText (mappingText entries) = (events, none) := by
  obtain ⟨tokens, hKinds, hTokens⟩ := Token.ofText_mappingText entries
  obtain ⟨opening, tokens, rfl, hOpening, hBehind⟩ := List.map_eq_append_iff.mp hKinds
  obtain ⟨inner, closing, rfl, hInner, hClosing⟩ := List.map_eq_append_iff.mp hBehind
  obtain ⟨steps, events, hSteps, hEvents, hRun⟩ :=
    (GoalStack.gives_start hOpening).append (GoalStack.gives_entries hInner)
  obtain ⟨n, hn⟩ : ∃ n, 8 * ((opening ++ (inner ++ closing)).length + 2) = n + 4 + steps := by
    refine ⟨8 * ((opening ++ (inner ++ closing)).length + 2) - 4 - steps, ?_⟩
    simp only [List.length_append] at hSteps ⊢
    omega
  obtain ⟨last, hLast, hEnd⟩ := GoalStack.run_close hClosing .unfinished n
  refine ⟨events ++ last, ?_, ?_⟩
  · rw [List.map_append, hEvents, hLast, GoalStack.mappingEvents, List.append_assoc, List.append_assoc,
      List.append_assoc]
    rfl
  · rw [Event.ofText, hTokens]
    show GoalStack.run .unfinished (8 * ((opening ++ (inner ++ closing)).length + 2)) .start
      (opening ++ (inner ++ closing)) = _
    rw [hn, ← List.append_assoc, hRun, hEnd]

/-! ## The document -/

/-- An event without an anchor that is neither an alias nor the end of a document. -/
structure Event.IsBare (e : Event) : Prop where
  anchor : e.anchor? = none
  notAlias : ∀ name, e.kind ≠ .alias name
  inside : e.kind ≠ .documentEnd

theorem Anchors.collect_eq {events : List Event} (h : ∀ e ∈ events, e.IsBare) (place : ℕ) (a : Anchors) :
    collect place a events = (a, events.map (a.numbers, ·), .none) := by
  induction events generalizing place with
  | nil => rfl
  | cons e events ih =>
    obtain ⟨hBare, hRest⟩ := List.forall_mem_cons.mp h
    unfold collect
    simp only [hBare.anchor, ih hRest]
    split
    · rename_i name hName
      exact absurd hName (hBare.notAlias name)
    · rfl

/-- Events without anchors and aliases are a document, each of them a part of it. -/
theorem Document.ofEvents_eq {events : List Event} (h : ∀ e ∈ events, e.IsBare) (mark : Mark) :
    ofEvents (events ++ [⟨.documentEnd, mark⟩]) none =
      ⟨events.filterMap (Part.ofEvent? [] []), none⟩ := by
  have hBody : (events ++ [Event.mk .documentEnd mark]).takeWhile (·.kind ≠ .documentEnd) = events := by
    rw [List.takeWhile_append_of_pos fun e he => decide_eq_true (h e he).inside]
    exact List.append_nil events
  rw [ofEvents, hBody]
  simp only
  rw [List.drop_left, Anchors.collect_eq h, List.filterMap_map]
  rfl

theorem Event.isBare_of_kind_mem {entries : List (List Char × List Char)} {e : Event}
    (h : e.kind ∈ GoalStack.mappingEvents entries) : e.IsBare := by
  obtain ⟨kind, mark⟩ := e
  simp only [GoalStack.mappingEvents, GoalStack.entryEvents, List.mem_append, List.mem_flatMap,
    List.mem_cons, List.not_mem_nil, or_false] at h
  rcases h with rfl | ⟨entry, _, rfl | rfl⟩ | rfl
  all_goals exact ⟨rfl, fun _ => Event.Kind.noConfusion, Event.Kind.noConfusion⟩

/-- The kinds of the parts of an entry. -/
def entryParts (entry : List Char × List Char) : List Part.Kind :=
  [.scalar none entry.1 false, .scalar none entry.2 false]

/-- The kinds of the parts of a mapping. -/
def mappingParts (entries : List (List Char × List Char)) : List Part.Kind :=
  [.mappingStart none] ++ (entries.flatMap entryParts ++ [.mappingEnd])

theorem map_kind_filterMap_ofEvent? (places : List (ℕ × ℕ)) (numbers : List (List Char × ℕ))
    (events : List Event) :
    (events.filterMap (Part.ofEvent? places numbers)).map Part.kind =
      (events.map Event.kind).filterMap fun kind =>
        (Part.ofEvent? places numbers ⟨kind, ⟨0, 0, 0⟩⟩).map Part.kind := by
  rw [List.map_filterMap, List.filterMap_map]
  refine List.filterMap_congr fun e _ => ?_
  simp only [Part.ofEvent?, Option.map_map]
  rfl

theorem filterMap_mappingEvents (places : List (ℕ × ℕ)) (numbers : List (List Char × ℕ))
    (entries : List (List Char × List Char)) :
    (GoalStack.mappingEvents entries).filterMap
      (fun kind => (Part.ofEvent? places numbers ⟨kind, ⟨0, 0, 0⟩⟩).map Part.kind) =
    mappingParts entries := by
  have hEntries : (entries.flatMap GoalStack.entryEvents).filterMap
      (fun kind => (Part.ofEvent? places numbers ⟨kind, ⟨0, 0, 0⟩⟩).map Part.kind) =
      entries.flatMap entryParts := by
    induction entries with
    | nil => rfl
    | cons entry entries ih =>
      rw [List.flatMap_cons, List.filterMap_append, ih]
      rfl
  rw [GoalStack.mappingEvents, List.filterMap_append, List.filterMap_append, hEntries]
  rfl

/-- The document of a mapping. -/
theorem Document.ofText_mappingText (entries : List (List Char × List Char)) :
    ∃ parts : List Part, parts.map Part.kind = mappingParts entries ∧
      Document.ofText (mappingText entries) = ⟨parts, none⟩ := by
  obtain ⟨events, hKinds, hEvents⟩ := Event.ofText_mappingText entries
  obtain ⟨body, last, rfl, hBody, hLast⟩ := List.map_eq_append_iff.mp hKinds
  obtain ⟨⟨_, mark⟩, rfl, rfl⟩ := List.map_eq_singleton_iff.mp hLast
  have hBare : ∀ e ∈ body, e.IsBare := fun e he =>
    Event.isBare_of_kind_mem (hBody ▸ List.mem_map_of_mem he)
  refine ⟨body.filterMap (Part.ofEvent? [] []), ?_, ?_⟩
  · rw [map_kind_filterMap_ofEvent?, hBody, filterMap_mappingEvents]
  · rw [Document.ofText, hEvents]
    exact Document.ofEvents_eq hBare mark

end SnippetAudit.Yaml
