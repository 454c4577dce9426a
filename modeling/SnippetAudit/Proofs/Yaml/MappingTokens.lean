import SnippetAudit.Proofs.Yaml.QuotedText
import SnippetAudit.Proofs.Yaml.Tokens

/-!
# The tokens of a mapping that is written in braces

Any list of pairs can be written as a mapping: in braces, an entry a line, each text in double quotes.
A key has its sign, so no token has to be held back until it is known whether a key starts there,
and each sign is handed on as soon as it is read.

Results:
* `TokenQueue.exists_readToken`: what is read at a sign, behind a space or a line break.
* `TokenQueue.hands_entry`, `TokenQueue.hands_entries`: the tokens of one entry are handed on, and those
  of all of them.
* `Token.ofText_mappingText`: the tokens of a mapping.
-/

namespace SnippetAudit.Yaml

/-! ## Writing -/

/-- An entry on a line of its own. -/
def entryText (entry : List Char × List Char) : List Char :=
  ['\n', '?', ' '] ++ (quotedText entry.1 ++ ([' ', ':', ' '] ++ (quotedText entry.2 ++ [','])))

/-- A mapping in braces, an entry a line. -/
def mappingText (entries : List (List Char × List Char)) : List Char :=
  ['-', '-', '-', ' ', '\x7b'] ++ (entries.flatMap entryText ++ ['\n', '\x7d'])

/-! ## Tokens -/

namespace TokenQueue

variable {s t u : TokenQueue} {kinds kinds' : List Token.Kind} {kind : Token.Kind}
  {gap rest text : List Char} {c : Char} {allowed : Bool}

/-- Tokens of some kinds are handed on between two states, each in two steps. -/
def Hands (s : TokenQueue) (kinds : List Token.Kind) (t : TokenQueue) : Prop :=
  ∃ tokens : List Token, tokens.map Token.kind = kinds ∧
    ∀ fuel, s.run (fuel + 2 * kinds.length) = (tokens ++ (t.run fuel).1, (t.run fuel).2)

theorem hands_nil (s : TokenQueue) : Hands s [] s := ⟨[], rfl, fun _ => rfl⟩

theorem Hands.append (h : Hands s kinds t) (h' : Hands t kinds' u) : Hands s (kinds ++ kinds') u := by
  obtain ⟨tokens, hKinds, hRun⟩ := h
  obtain ⟨tokens', hKinds', hRun'⟩ := h'
  refine ⟨tokens ++ tokens', by rw [List.map_append, hKinds, hKinds'], fun fuel => ?_⟩
  have hFuel : fuel + 2 * (kinds ++ kinds').length = fuel + 2 * kinds'.length + 2 * kinds.length := by
    rw [List.length_append]
    omega
  rw [hFuel, hRun, hRun', List.append_assoc]

theorem dropStaleKeys_of_none (h : ∀ k ∈ s.keys, k = none) : s.dropStaleKeys = .ok s := by
  have hKeys (keys : List (Option KeyStart)) (h : ∀ k ∈ keys, k = none) :
      keys.mapM (giveUp fun k => !k.isStale s.cursor.mark) = .ok keys := by
    induction keys with
    | nil => rfl
    | cons k keys ih =>
      obtain ⟨rfl, hRest⟩ := List.forall_mem_cons.mp h
      rw [List.mapM_cons, ih hRest]
      rfl
  rw [dropStaleKeys, hKeys s.keys h]
  rfl

theorem isHeldBack_of_none (h : ∀ k ∈ s.keys, k = none) : s.isHeldBack = false := by
  rw [isHeldBack, List.any_eq_false]
  intro k hk
  rw [h k hk]
  exact Bool.false_ne_true

/-- A token that is read while no key may have started is handed on. -/
theorem hands_of_readToken {start stop : Mark} (hQueue : s.queue = []) (hRead : s.readToken = .ok t)
    (hNew : t.queue = [⟨kind, start, stop⟩]) (hKeys : ∀ k ∈ t.keys, k = none)
    (hKind : kind ≠ .streamEnd) :
    Hands s [kind] { t with queue := [], handed := t.handed + 1 } := by
  refine ⟨[⟨kind, start, stop⟩], rfl, fun fuel => ?_⟩
  have hFirst : s.next = .ok (none, t) := by
    rw [next, hQueue, hRead]
    rfl
  have hSecond : t.next =
      .ok (some ⟨kind, start, stop⟩, { t with queue := [], handed := t.handed + 1 }) := by
    rw [next, hNew]
    simp only
    rw [dropStaleKeys_of_none hKeys]
    show (if t.isHeldBack = true then _ else _) = _
    rw [isHeldBack_of_none hKeys]
    rfl
  show s.run (fuel + 1 + 1) = _
  rw [run, hFirst]
  simp only
  rw [run, hSecond]
  simp only
  rw [if_neg hKind]
  rfl

/-! ### Signs -/

/-- The characters that tokens in braces start with. -/
def signs : List Char := ['?', ':', ',', '"', '\x7b', '\x7d']

/-- Reads the token that starts with a sign. -/
def readSign (s : TokenQueue) (c : Char) : Except Fault TokenQueue :=
  match c with
  | '?' => s.readKey
  | ':' => s.readValue
  | ',' => s.readSeparator
  | '"' => s.readQuoted true
  | '\x7b' => s.readOpen .openMapping
  | _ => s.readClose .closeMapping

/-- What may stand between two tokens in braces: nothing, a space, or a line break. -/
def gaps : List (List Char) := [[], [' '], ['\n']]

/-- No token is held back, no block is open, and no key may have started. -/
structure IsClear (s : TokenQueue) : Prop where
  queue : s.queue = []
  blocks : s.blocks = []
  keys : ∀ k ∈ s.keys, k = none

theorem skipSeparation_sign (hc : c ∈ signs) (hRest : s.cursor.rest = c :: rest) {fuel : ℕ}
    (hFuel : 0 < fuel) : s.skipSeparation fuel = s := by
  obtain ⟨fuel, rfl⟩ := Nat.exists_eq_add_of_le' hFuel
  obtain ⟨n, ⟨text, mark⟩, queue, handed, blocks, keys, keyAllowed⟩ := s
  obtain rfl : text = c :: rest := hRest
  simp only [signs, List.mem_cons, List.not_mem_nil, or_false] at hc
  rcases hc with rfl | rfl | rfl | rfl | rfl | rfl
  all_goals
    simp [skipSeparation, Cursor.skipWhile, Cursor.span, Cursor.skipComment, isBreak, Mark.advance,
      byteCount]

/-- What may stand between two tokens in braces is skipped up to the next sign. -/
theorem exists_skipSeparation (hc : c ∈ signs) (hGap : gap ∈ gaps)
    (hLine : gap = ['\n'] → s.inFlow = true) (hRest : s.cursor.rest = gap ++ c :: rest) {fuel : ℕ}
    (hFuel : 1 < fuel) :
    ∃ mark, s.skipSeparation fuel = { s with cursor := ⟨c :: rest, mark⟩ } := by
  simp only [gaps, List.mem_cons, List.not_mem_nil, or_false] at hGap
  rcases hGap with rfl | rfl | rfl
  · refine ⟨s.cursor.mark, ?_⟩
    rw [skipSeparation_sign hc hRest (Nat.zero_lt_of_lt hFuel),
      ← show s.cursor.rest = c :: rest from hRest]
  · refine ⟨s.cursor.mark.advance [' '], ?_⟩
    obtain ⟨fuel, rfl⟩ := Nat.exists_eq_add_of_le' hFuel
    obtain ⟨n, ⟨text, mark⟩, queue, handed, blocks, keys, keyAllowed⟩ := s
    obtain rfl : text = ' ' :: c :: rest := hRest
    simp only [signs, List.mem_cons, List.not_mem_nil, or_false] at hc
    rcases hc with rfl | rfl | rfl | rfl | rfl | rfl
    all_goals simp [skipSeparation, Cursor.skipWhile, Cursor.span, Cursor.skipComment, isBreak]
  · obtain ⟨fuel, rfl⟩ := Nat.exists_eq_add_of_le' hFuel
    have hSkip : s.skipSeparation (fuel + 1 + 1) =
        skipSeparation (fuel + 1) { s with cursor := ⟨c :: rest, s.cursor.mark.nextLine ['\n']⟩ } := by
      obtain ⟨n, ⟨text, mark⟩, queue, handed, blocks, keys, keyAllowed⟩ := s
      obtain rfl : text = '\n' :: c :: rest := hRest
      rw [skipSeparation]
      simp [hLine, Cursor.skipWhile, Cursor.span, Cursor.skipComment, isBreak, Cursor.nextLine,
        Mark.advance, byteCount]
    exact ⟨_, hSkip.trans (skipSeparation_sign hc rfl (Nat.succ_pos fuel))⟩

theorem readToken_of_skipSeparation (h : s.skipSeparation s.fuel = t)
    (ht : t.skipSeparation t.fuel = t) : s.readToken = t.readToken := by
  rw [readToken, h, readToken, ht]

/-- What a sign in braces is read as. -/
theorem readToken_sign (hClear : IsClear s) (hc : c ∈ signs) (hFlow : s.inFlow = true ∨ c = '\x7b')
    (hRest : s.cursor.rest = c :: rest) (hFuel : 0 < s.fuel) : s.readToken = s.readSign c := by
  rw [readToken, skipSeparation_sign hc hRest hFuel, dropStaleKeys_of_none hClear.keys]
  simp only [bind, Except.bind, closeBlocks_eq s _ hClear.blocks, hRest]
  simp only [signs, List.mem_cons, List.not_mem_nil, or_false] at hc
  rcases hc with rfl | rfl | rfl | rfl | rfl | rfl
  all_goals simp_all [readSign, atDocumentMarker_of_ne]

/-- What a sign is read as behind a space or a line break. -/
theorem exists_readToken (hClear : IsClear s) (hc : c ∈ signs) (hFlow : s.inFlow = true ∨ c = '\x7b')
    (hGap : gap ∈ gaps) (hLine : gap = ['\n'] → s.inFlow = true)
    (hRest : s.cursor.rest = gap ++ c :: rest) (hFuel : 1 < s.fuel) :
    ∃ mark, s.readToken = readSign { s with cursor := ⟨c :: rest, mark⟩ } c := by
  obtain ⟨mark, hSkip⟩ := exists_skipSeparation hc hGap hLine hRest hFuel
  have hPos : 0 < s.fuel := Nat.zero_lt_of_lt hFuel
  refine ⟨mark, ?_⟩
  rw [readToken_of_skipSeparation hSkip (skipSeparation_sign hc rfl hPos)]
  exact readToken_sign ⟨hClear.queue, hClear.blocks, hClear.keys⟩ hc hFlow rfl hPos

/-! ### In braces -/

/-- The state is between two tokens in the braces of a mapping, and the text is left. -/
def InBraces (fuel : ℕ) (allowed : Bool) (text : List Char) (s : TokenQueue) : Prop :=
  ∃ mark handed, s = ⟨fuel, ⟨text, mark⟩, [], handed, [], [none, none], allowed⟩

variable {fuel : ℕ}

/-- A sign in braces hands its token on, if that is what is read there. -/
theorem hands_sign {after : Bool} (h : InBraces fuel allowed (gap ++ c :: text) s) (hGap : gap ∈ gaps)
    (hc : c ∈ signs) (hFuel : 1 < fuel) (hKind : kind ≠ .streamEnd)
    (hRead : ∀ mark handed, ∃ mark' start stop,
      readSign ⟨fuel, ⟨c :: text, mark⟩, [], handed, [], [none, none], allowed⟩ c =
        .ok ⟨fuel, ⟨rest, mark'⟩, [⟨kind, start, stop⟩], handed, [], [none, none], after⟩) :
    ∃ t, Hands s [kind] t ∧ InBraces fuel after rest t := by
  obtain ⟨mark, handed, rfl⟩ := h
  obtain ⟨m, hToken⟩ := exists_readToken
    (s := ⟨fuel, ⟨gap ++ c :: text, mark⟩, [], handed, [], [none, none], allowed⟩)
    ⟨rfl, rfl, by simp⟩ hc (.inl rfl) hGap (fun _ => rfl) rfl hFuel
  obtain ⟨mark', start, stop, hSign⟩ := hRead m handed
  exact ⟨_, hands_of_readToken rfl (hToken.trans hSign) rfl (by simp) hKind, mark', handed + 1, rfl⟩

theorem hands_key (h : InBraces fuel allowed (gap ++ '?' :: text) s) (hGap : gap ∈ gaps)
    (hFuel : 1 < fuel) : ∃ t, Hands s [.key] t ∧ InBraces fuel false text t :=
  hands_sign h hGap (by decide) hFuel (by decide) fun _ _ => ⟨_, _, _, rfl⟩

theorem hands_value (h : InBraces fuel allowed (gap ++ ':' :: text) s) (hGap : gap ∈ gaps)
    (hFuel : 1 < fuel) : ∃ t, Hands s [.value] t ∧ InBraces fuel false text t :=
  hands_sign h hGap (by decide) hFuel (by decide) fun _ _ => ⟨_, _, _, rfl⟩

theorem hands_separator (h : InBraces fuel allowed (gap ++ ',' :: text) s) (hGap : gap ∈ gaps)
    (hFuel : 1 < fuel) : ∃ t, Hands s [.separator] t ∧ InBraces fuel true text t :=
  hands_sign h hGap (by decide) hFuel (by decide) fun _ _ => ⟨_, _, _, rfl⟩

theorem hands_quoted {word : List Char} (h : InBraces fuel false (gap ++ (quotedText word ++ text)) s)
    (hGap : gap ∈ gaps) (hFuel : word.length + 1 < fuel) :
    ∃ t, Hands s [.scalar word false] t ∧ InBraces fuel false text t := by
  refine hands_sign h hGap (by decide) (by omega) Token.Kind.noConfusion fun m handed => ?_
  obtain ⟨m', hQuoted⟩ := readQuoted_quotedText word text (Nat.lt_of_succ_lt hFuel) m
  refine ⟨m', m, m', ?_⟩
  show (Scalar.readQuoted true fuel ⟨quotedText word ++ text, m⟩ >>= _) = _
  rw [hQuoted]
  rfl

/-! ### Entries -/

/-- The kinds of the tokens of an entry. -/
def entryKinds (entry : List Char × List Char) : List Token.Kind :=
  [.key, .scalar entry.1 false, .value, .scalar entry.2 false, .separator]

theorem length_lt_quotedText (word : List Char) : word.length + 1 < (quotedText word).length := by
  have hEscaped : word.length ≤ (word.flatMap escaped).length := by
    induction word with
    | nil => exact Nat.le_refl _
    | cons c word ih =>
      rw [List.flatMap_cons, List.length_append, List.length_cons, escaped, List.length_cons]
      omega
  rw [quotedText, List.length_cons, List.length_append, List.length_singleton]
  omega

theorem hands_entry {entry : List Char × List Char} (h : InBraces fuel true (entryText entry ++ text) s)
    (hFuel : (entryText entry).length < fuel) :
    ∃ t, Hands s (entryKinds entry) t ∧ InBraces fuel true text t := by
  have hText : entryText entry ++ text = ['\n'] ++ '?' :: ([' '] ++ (quotedText entry.1 ++
      ([' '] ++ ':' :: ([' '] ++ (quotedText entry.2 ++ ([] ++ ',' :: text)))))) := by
    simp [entryText]
  have hKey := length_lt_quotedText entry.1
  have hValue := length_lt_quotedText entry.2
  simp only [entryText, List.length_append, List.length_cons] at hFuel
  rw [hText] at h
  obtain ⟨t₁, h₁, hBraces⟩ := hands_key h (by decide) (by omega)
  obtain ⟨t₂, h₂, hBraces⟩ := hands_quoted hBraces (by decide) (by omega)
  obtain ⟨t₃, h₃, hBraces⟩ := hands_value hBraces (by decide) (by omega)
  obtain ⟨t₄, h₄, hBraces⟩ := hands_quoted hBraces (by decide) (by omega)
  obtain ⟨t₅, h₅, hBraces⟩ := hands_separator hBraces (by decide) (by omega)
  exact ⟨t₅, h₁.append (h₂.append (h₃.append (h₄.append h₅))), hBraces⟩

theorem hands_entries {entries : List (List Char × List Char)}
    (h : InBraces fuel true (entries.flatMap entryText ++ text) s)
    (hFuel : (entries.flatMap entryText).length < fuel) :
    ∃ t, Hands s (entries.flatMap entryKinds) t ∧ InBraces fuel true text t := by
  induction entries generalizing s with
  | nil => exact ⟨s, hands_nil s, h⟩
  | cons entry entries ih =>
    rw [List.flatMap_cons, List.append_assoc] at h
    rw [List.flatMap_cons, List.length_append] at hFuel
    obtain ⟨t, hEntry, hBraces⟩ := hands_entry h (by omega)
    obtain ⟨u, hEntries, hBraces⟩ := ih hBraces (by omega)
    exact ⟨u, hEntry.append hEntries, hBraces⟩

/-! ### The whole text -/

theorem hands_start (body : List Char) :
    ∃ t, Hands (.start (['-', '-', '-', ' ', '\x7b'] ++ body)) [.documentStart, .openMapping] t ∧
      InBraces (body.length + 6) true body t := by
  have hStart : readToken (.start (['-', '-', '-', ' ', '\x7b'] ++ body)) =
      .ok ⟨body.length + 6, ⟨' ' :: '\x7b' :: body, ⟨3, 0, 3⟩⟩,
        [⟨.documentStart, ⟨0, 0, 0⟩, ⟨3, 0, 3⟩⟩], 0, [], [none], false⟩ := rfl
  obtain ⟨mark, hSign⟩ := exists_readToken
    (s := ⟨body.length + 6, ⟨' ' :: '\x7b' :: body, ⟨3, 0, 3⟩⟩, [], 1, [], [none], false⟩)
    ⟨rfl, rfl, by simp⟩ (show '\x7b' ∈ signs by decide) (.inr rfl) (show [' '] ∈ gaps by decide)
    (fun h => absurd h (by decide)) rfl (Nat.lt_add_left _ (by decide))
  have hOpen :
      readToken ⟨body.length + 6, ⟨' ' :: '\x7b' :: body, ⟨3, 0, 3⟩⟩, [], 1, [], [none], false⟩ =
      .ok ⟨body.length + 6, ⟨body, mark.advance ['\x7b']⟩,
        [⟨.openMapping, mark, mark.advance ['\x7b']⟩], 1, [], [none, none], true⟩ := hSign
  exact ⟨_, (hands_of_readToken rfl hStart rfl (by simp) (by decide)).append
    (hands_of_readToken rfl hOpen rfl (by simp) (by decide)), _, _, rfl⟩

/-- The end of the text is the last token. -/
theorem run_nil (mark : Mark) (handed : ℕ) (allowed : Bool) (hFuel : 0 < fuel) (n : ℕ) :
    ∃ token : Token, token.kind = .streamEnd ∧
      run (n + 2) ⟨fuel, ⟨[], mark⟩, [], handed, [], [none], allowed⟩ = ([token], none) := by
  have hSkip : skipSeparation fuel ⟨fuel, ⟨[], mark⟩, [], handed, [], [none], allowed⟩ =
      ⟨fuel, ⟨[], mark⟩, [], handed, [], [none], allowed⟩ := by
    obtain ⟨fuel, rfl⟩ := Nat.exists_eq_add_of_le' hFuel
    simp [skipSeparation, Cursor.skipWhile, Cursor.span, Cursor.skipComment, Mark.advance, byteCount]
  have hRead : ∃ mark', readToken ⟨fuel, ⟨[], mark⟩, [], handed, [], [none], allowed⟩ =
      .ok ⟨fuel, ⟨[], mark'⟩, [⟨.streamEnd, mark', mark'⟩], handed, [], [none], false⟩ := by
    rw [readToken, hSkip]
    exact ⟨_, rfl⟩
  obtain ⟨mark', hRead⟩ := hRead
  refine ⟨⟨.streamEnd, mark', mark'⟩, rfl, ?_⟩
  have hNext : next ⟨fuel, ⟨[], mark⟩, [], handed, [], [none], allowed⟩ =
      .ok (none, ⟨fuel, ⟨[], mark'⟩, [⟨.streamEnd, mark', mark'⟩], handed, [], [none], false⟩) := by
    rw [next]
    simp only
    rw [hRead]
    rfl
  rw [run, hNext]
  rfl

/-- The closing brace and the end of the text end the tokens. -/
theorem run_close (h : InBraces fuel allowed ['\n', '\x7d'] s) (hFuel : 1 < fuel) (n : ℕ) :
    ∃ tokens : List Token, tokens.map Token.kind = [.closeMapping, .streamEnd] ∧
      s.run (n + 4) = (tokens, none) := by
  obtain ⟨mark, handed, rfl⟩ := h
  obtain ⟨m, hSign⟩ := exists_readToken
    (s := ⟨fuel, ⟨['\n', '\x7d'], mark⟩, [], handed, [], [none, none], allowed⟩)
    ⟨rfl, rfl, by simp⟩ (show '\x7d' ∈ signs by decide) (.inl rfl) (show ['\n'] ∈ gaps by decide)
    (fun _ => rfl) rfl hFuel
  have hClose : readToken ⟨fuel, ⟨['\n', '\x7d'], mark⟩, [], handed, [], [none, none], allowed⟩ =
      .ok ⟨fuel, ⟨[], m.advance ['\x7d']⟩, [⟨.closeMapping, m, m.advance ['\x7d']⟩], handed, [], [none],
        false⟩ := hSign
  obtain ⟨tokens, hKinds, hRun⟩ := hands_of_readToken rfl hClose rfl (by simp) (by decide)
  obtain ⟨token, hKind, hEnd⟩ :=
    run_nil (m.advance ['\x7d']) (handed + 1) false (Nat.zero_lt_of_lt hFuel) n
  refine ⟨tokens ++ [token], by rw [List.map_append, hKinds, List.map_singleton, hKind]; rfl, ?_⟩
  rw [show n + 4 = n + 2 + 2 * [Token.Kind.closeMapping].length from rfl, hRun]
  simp only
  rw [hEnd]

end TokenQueue

/-- The kinds of the tokens of a mapping. -/
def mappingKinds (entries : List (List Char × List Char)) : List Token.Kind :=
  [.documentStart, .openMapping] ++
    (entries.flatMap TokenQueue.entryKinds ++ [.closeMapping, .streamEnd])

theorem isAllowed_of_mem_hexDigits {k n : ℕ} {c : Char} (h : c ∈ hexDigits k n) :
    isAllowed c = true := by
  have hDigit : ∀ d < 16, isAllowed (Nat.digitChar d) = true := by decide
  induction k generalizing n with
  | zero => cases h
  | succ k ih =>
    rcases List.mem_append.mp h with h | h
    · exact ih h
    · rw [List.mem_singleton.mp h]
      exact hDigit _ (Nat.mod_lt _ (by decide))

theorem all_isAllowed_quotedText (word : List Char) : (quotedText word).all isAllowed = true := by
  have hEscaped (c : Char) : (escaped c).all isAllowed = true := by
    rw [escaped, List.all_cons, List.all_cons, List.all_eq_true.mpr fun _ => isAllowed_of_mem_hexDigits]
    decide
  simp only [quotedText, List.all_cons, List.all_append, List.all_flatMap, hEscaped]
  rw [List.all_eq_true.mpr fun _ _ => rfl]
  decide

theorem all_isAllowed_mappingText (entries : List (List Char × List Char)) :
    (mappingText entries).all isAllowed = true := by
  have hEntry (entry : List Char × List Char) : (entryText entry).all isAllowed = true := by
    simp only [entryText, List.all_append, all_isAllowed_quotedText]
    decide
  simp only [mappingText, List.all_append, List.all_flatMap, hEntry]
  rw [List.all_eq_true.mpr fun _ _ => rfl]
  decide

theorem length_flatMap_entryKinds_le (entries : List (List Char × List Char)) :
    (entries.flatMap TokenQueue.entryKinds).length ≤ (entries.flatMap entryText).length := by
  induction entries with
  | nil => exact Nat.le_refl _
  | cons entry entries ih =>
    have hKinds : (TokenQueue.entryKinds entry).length = 5 := rfl
    have hText : 5 ≤ (entryText entry).length := by
      simp only [entryText, List.length_append, List.length_cons]
      omega
    rw [List.flatMap_cons, List.flatMap_cons, List.length_append, List.length_append, hKinds]
    omega

/-- The tokens of a mapping. -/
theorem Token.ofText_mappingText (entries : List (List Char × List Char)) :
    ∃ tokens : List Token, tokens.map Token.kind = mappingKinds entries ∧
      Token.ofText (mappingText entries) = (tokens, none) := by
  have hKinds := length_flatMap_entryKinds_le entries
  obtain ⟨s, hStart, hBraces⟩ := TokenQueue.hands_start (entries.flatMap entryText ++ ['\n', '\x7d'])
  have hFuel : (entries.flatMap entryText).length <
      (entries.flatMap entryText ++ ['\n', '\x7d']).length + 6 := by
    rw [List.length_append]
    omega
  obtain ⟨t, hEntries, hBraces⟩ := TokenQueue.hands_entries hBraces hFuel
  obtain ⟨tokens, hTokens, hRun⟩ := hStart.append hEntries
  -- the steps that are left are enough for the closing brace and the end
  obtain ⟨n, hn⟩ : ∃ n, 6 * ((mappingText entries).length + 4) =
      n + 4 + 2 * ([Token.Kind.documentStart, .openMapping] ++
        entries.flatMap TokenQueue.entryKinds).length := by
    refine ⟨6 * ((mappingText entries).length + 4) - 4 - 2 * ([Token.Kind.documentStart, .openMapping] ++
      entries.flatMap TokenQueue.entryKinds).length, ?_⟩
    simp only [mappingText, List.length_append, List.length_cons, List.length_nil]
    omega
  obtain ⟨closing, hClosing, hEnd⟩ := TokenQueue.run_close hBraces (Nat.lt_add_left _ (by decide)) n
  refine ⟨tokens ++ closing, ?_, ?_⟩
  · rw [List.map_append, hTokens, hClosing, List.append_assoc]
    rfl
  · rw [Token.ofText, if_pos (all_isAllowed_mappingText entries), hn]
    exact (hRun (n + 4)).trans (by rw [hEnd])

end SnippetAudit.Yaml
