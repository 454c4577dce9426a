import Mathlib.Data.List.TakeWhile
import Mathlib.Tactic.Push
import SnippetAudit.Proofs.Lists
import SnippetAudit.Proofs.Source.Runs

/-!
# Metadata blocks and runs of comment lines

The blocks that the loops of `Block.ofText` find in a file, against the maximal runs of comment
lines in it: a run that holds a marker line opens one block, and there are no other blocks.

Results:
* `isBlockOf_of_ofRun?`: the block of a run starts at its first marker line, ends with the
  run, and holds the lines between.
* `ofText_runs`: the blocks of a file are those of its maximal runs with a marker line, one
  for each and in file order; spans are apart, and a document has a line feed for each line
  behind the marker.
-/

namespace SnippetAudit.Block

open Text

/-! ## Specification -/

/-- The text of a comment line in a document: one leading space is not part of it. -/
def documentText (sign line : List Char) : List Char :=
  match commentText sign line with
  | ' ' :: rest => rest
  | text => text

/-- The document of the `count` lines from index `n` on, each ended by a line feed. -/
def documentOf (sign : List Char) (ls : List (List Char)) (n count : ℕ) : List Char :=
  ((ls.drop n).take count).flatMap fun line => documentText sign line ++ ['\n']

/-- The block of a run of comment lines, given by its first and last line: it starts at the
    first marker line of the run and ends with the run. -/
structure IsBlockOf (sign marker : List Char) (filename : Path) (ls : List (List Char)) (r : ℕ × ℕ)
    (b : Block) : Prop where
  filename_eq : b.filename = filename
  first_le : r.1 + 1 ≤ b.location.line
  le_last : b.location.line ≤ r.2 + 1
  marker_at : MarkerAt sign marker ls (b.location.line - 1)
  first_marker : ∀ n, r.1 ≤ n → n + 1 < b.location.line → ¬ MarkerAt sign marker ls n
  endLine_eq : b.endLine = r.2 + 1
  rawText_eq : b.rawText = documentOf sign ls b.location.line (b.endLine - b.location.line)

/-! ## Line feeds -/

theorem lineFeed_not_mem_lines {text line : List Char} (h : line ∈ lines text) : '\n' ∉ line := by
  fun_induction lines text generalizing line with
  | case1 => simp at h
  | case2 rest ih =>
    rcases List.mem_cons.mp h with rfl | h
    · simp
    · exact ih h
  | case3 rest ih =>
    rcases List.mem_cons.mp h with rfl | h
    · simp
    · exact ih h
  | case4 c rest hFeed hReturn hNil ih =>
    rw [List.mem_singleton.mp h, List.mem_singleton]
    exact Ne.symm hFeed
  | case5 c rest hFeed hReturn first others hLines ih =>
    rcases List.mem_cons.mp h with rfl | h
    · have := ih (hLines ▸ List.mem_cons_self)
      rw [List.mem_cons, not_or]
      exact ⟨Ne.symm hFeed, this⟩
    · exact ih (hLines ▸ List.mem_cons_of_mem _ h)

theorem trim_sublist (line : List Char) : (trim line).Sublist line := by
  unfold trim trimEnd trimStart
  refine List.Sublist.trans ?_ (List.dropWhile_sublist isBlank)
  rw [← List.reverse_sublist, List.reverse_reverse]
  exact List.dropWhile_sublist isBlank

theorem documentText_sublist (sign line : List Char) : (documentText sign line).Sublist line := by
  have hText : (commentText sign line).Sublist line :=
    (List.drop_sublist _ _).trans (trim_sublist line)
  unfold documentText
  split
  · rename_i rest hSpace
    exact (List.sublist_cons_self ' ' rest).trans (hSpace ▸ hText)
  · exact hText

/-- A document has one line feed for each of its lines. -/
theorem count_lineFeed_documentOf {sign text : List Char} {n count : ℕ}
    (h : n + count ≤ (lines text).length) :
    (documentOf sign (lines text) n count).count '\n' = count := by
  have hLine : ∀ line ∈ ((lines text).drop n).take count,
      (List.count '\n' ∘ fun line => documentText sign line ++ ['\n']) line = 1 := by
    intro line hMem
    have hLines : line ∈ lines text := List.mem_of_mem_drop (List.mem_of_mem_take hMem)
    have hNone : '\n' ∉ documentText sign line :=
      fun hFeed => lineFeed_not_mem_lines hLines ((documentText_sublist sign line).mem hFeed)
    rw [Function.comp_apply, List.count_append, List.count_eq_zero_of_not_mem hNone,
      List.count_singleton_self]
  rw [documentOf, List.count_flatMap, List.map_congr_left hLine, List.map_const',
    List.sum_replicate_nat]
  simp only [List.length_take, List.length_drop]
  omega

/-! ## The block of a run -/

/-- Comments on consecutive lines give the document of these lines. -/
theorem unlines_map_documentLine {sign : List Char} {ls : List (List Char)} {i : ℕ}
    {rest : List Comment} (hIndex : rest.map (·.index) = List.range' i rest.length)
    (hMem : ∀ c ∈ rest, c ∈ Comment.ofLines sign 0 ls) :
    unlines (rest.map documentLine) = documentOf sign ls i rest.length := by
  induction rest generalizing i with
  | nil => rfl
  | cons c rest ih =>
    rw [List.map_cons, List.length_cons, List.range'_succ] at hIndex
    obtain ⟨rfl, hRest⟩ := List.cons.inj hIndex
    obtain ⟨line, hLine, _, hValue⟩ := mem_ofLines_zero_iff.mp (hMem c List.mem_cons_self)
    have hDrop : ls.drop c.index = line :: ls.drop (c.index + 1) := by
      obtain ⟨hlt, rfl⟩ := List.getElem?_eq_some_iff.mp hLine
      exact List.drop_eq_getElem_cons hlt
    have hText : documentLine c = documentText sign line :=
      congrArg (fun | ' ' :: text => text | text => text) hValue
    have hTail := ih hRest fun d hd => hMem d (List.mem_cons_of_mem _ hd)
    unfold unlines documentOf at hTail ⊢
    rw [List.length_cons, hDrop, List.take_succ_cons, List.map_cons, List.flatMap_cons, hTail, hText,
      List.flatMap_cons]

/-- What a run opens: its first marker, with the comments behind it. -/
theorem ofRun?_eq_some_iff {filename : Path} {marker : List Char} {run : List Comment} {b : Block} :
    ofRun? filename marker run = some b ↔
      ∃ pre head rest, run = pre ++ head :: rest ∧ (∀ c ∈ pre, isMarker marker c = false) ∧
        isMarker marker head = true ∧
        b = ⟨filename, .ofIndex head.index, head.index + rest.length + 1,
          unlines (rest.map documentLine)⟩ := by
  unfold ofRun?
  constructor
  · intro h
    have hSplit := List.takeWhile_append_dropWhile (p := (!isMarker marker ·)) (l := run)
    split at h
    · cases h
    · rename_i head rest hDrop
      rw [hDrop] at hSplit
      refine ⟨_, head, rest, hSplit.symm, ?_, ?_, (Option.some.inj h).symm⟩
      · intro c hc
        simpa using List.mem_takeWhile_imp hc
      · have hNot := List.head_dropWhile_not (!isMarker marker ·) (l := run) (by simp [hDrop])
        simpa [hDrop] using hNot
  · rintro ⟨pre, head, rest, rfl, hPre, hHead, rfl⟩
    have hDrop : (pre ++ head :: rest).dropWhile (!isMarker marker ·) = head :: rest := by
      rw [List.dropWhile_append_of_pos (by simpa using hPre),
        List.dropWhile_cons_of_neg (by simp [hHead])]
    rw [hDrop]

/-- The block of a run starts at its first marker line, ends with the run, and holds the
    lines between. -/
theorem isBlockOf_of_ofRun? {sign marker : List Char} {filename : Path} {ls : List (List Char)}
    {run : List Comment} (h : run ∈ runs (Comment.ofLines sign 0 ls)) {b : Block}
    (hb : ofRun? filename marker run = some b) :
    IsBlockOf sign marker filename ls (bounds run) b := by
  obtain ⟨pre, head, rest, hSplit, hPre, hHead, rfl⟩ := ofRun?_eq_some_iff.mp hb
  have hMem {c : Comment} (hc : c ∈ run) : c ∈ Comment.ofLines sign 0 ls := mem_of_mem_runs h hc
  have hHeadMem : head ∈ run := by simp [hSplit]
  -- the indices of `pre`, `head` and `rest` follow one another
  obtain ⟨c, others, hRun, hMap⟩ := mem_runs_cons h
  have hBounds : bounds run = (c.index, c.index + others.length) := by rw [hRun, bounds]
  have hLength : others.length + 1 = pre.length + (rest.length + 1) := by
    have := congrArg List.length (hRun.symm.trans hSplit)
    simpa using this
  rw [hSplit, List.map_append, hLength, ← List.range'_append_1] at hMap
  obtain ⟨hPreIndex, hIndex⟩ := List.append_inj hMap (by simp)
  rw [List.map_cons, List.range'_succ] at hIndex
  obtain ⟨hHeadIndex, hRestIndex⟩ := List.cons.inj hIndex
  rw [hBounds]
  refine ⟨rfl, ?_, ?_, ?_, ?_, ?_, ?_⟩
  · simp only [Location.line_ofIndex]
    omega
  · simp only [Location.line_ofIndex]
    omega
  · exact (isMarker_iff (hMem hHeadMem)).mp hHead
  · intro n hFirst hBefore hMarker
    simp only [Location.line_ofIndex] at hFirst hBefore
    -- the comment on a line before `head` is one of `pre`
    have hn : n ∈ pre.map (·.index) := by
      rw [hPreIndex, List.mem_range'_1]
      omega
    obtain ⟨d, hd, rfl⟩ := List.mem_map.mp hn
    have hdRun : d ∈ run := by simp [hSplit, hd]
    rw [← isMarker_iff (hMem hdRun), hPre d hd] at hMarker
    cases hMarker
  · simp only
    omega
  · have hRest := unlines_map_documentLine hRestIndex fun d hd => hMem (by simp [hSplit, hd])
    simp only [Location.line_ofIndex]
    rw [hRest, hHeadIndex]
    congr 1
    omega

/-- A run opens a block iff it holds a marker line. -/
theorem isSome_ofRun?_iff {sign marker : List Char} {filename : Path} {ls : List (List Char)}
    {run : List Comment} (h : run ∈ runs (Comment.ofLines sign 0 ls)) :
    (ofRun? filename marker run).isSome = true ↔
      ∃ n, (bounds run).1 ≤ n ∧ n ≤ (bounds run).2 ∧ MarkerAt sign marker ls n := by
  rw [← Option.ne_none_iff_isSome, ne_eq, ofRun?_eq_none_iff]
  push Not
  constructor
  · rintro ⟨c, hc, hMarker⟩
    rw [ne_eq, Bool.not_eq_false, isMarker_iff (mem_of_mem_runs h hc)] at hMarker
    obtain ⟨hFirst, hLast⟩ := (mem_run_iff_bounds h).mp ⟨c, hc, rfl⟩
    exact ⟨c.index, hFirst, hLast, hMarker⟩
  · rintro ⟨n, hFirst, hLast, hMarker⟩
    obtain ⟨c, hc, rfl⟩ := (mem_run_iff_bounds h).mpr ⟨hFirst, hLast⟩
    refine ⟨c, hc, ?_⟩
    rw [ne_eq, Bool.not_eq_false, isMarker_iff (mem_of_mem_runs h hc)]
    exact hMarker

/-! ## The blocks of a file -/

/-- The runs of a file that open a block, by their bounds. -/
def openingRuns (marker : List Char) (filename : Path) (rs : List (List Comment)) : List (ℕ × ℕ) :=
  (rs.filter fun run => (ofRun? filename marker run).isSome).map bounds

theorem forall₂_openingRuns {sign marker : List Char} {filename : Path} {ls : List (List Char)}
    {rs : List (List Comment)} (h : ∀ run ∈ rs, run ∈ runs (Comment.ofLines sign 0 ls)) :
    List.Forall₂ (IsBlockOf sign marker filename ls) (openingRuns marker filename rs)
      (rs.filterMap (ofRun? filename marker)) := by
  induction rs with
  | nil => exact .nil
  | cons run rs ih =>
    have hRest := ih fun r hr => h r (List.mem_cons_of_mem _ hr)
    unfold openingRuns at hRest ⊢
    cases hb : ofRun? filename marker run with
    | none =>
      rw [List.filterMap_cons_none hb, List.filter_cons_of_neg (by simp [hb])]
      exact hRest
    | some b =>
      rw [List.filterMap_cons_some hb, List.filter_cons_of_pos (by simp [hb]), List.map_cons]
      exact .cons (isBlockOf_of_ofRun? (h run List.mem_cons_self) hb) hRest

theorem mem_openingRuns_iff {sign marker : List Char} {filename : Path} {ls : List (List Char)}
    {r : ℕ × ℕ} :
    r ∈ openingRuns marker filename (runs (Comment.ofLines sign 0 ls)) ↔
      IsRun sign ls r.1 r.2 ∧ ∃ n, r.1 ≤ n ∧ n ≤ r.2 ∧ MarkerAt sign marker ls n := by
  unfold openingRuns
  rw [List.mem_map]
  simp only [List.mem_filter]
  constructor
  · rintro ⟨run, ⟨hRun, hOpens⟩, rfl⟩
    exact ⟨isRun_bounds hRun, (isSome_ofRun?_iff hRun).mp hOpens⟩
  · rintro ⟨hIsRun, hMarker⟩
    obtain ⟨run, hRun, hBounds⟩ := exists_run_of_isRun hIsRun
    refine ⟨run, ⟨hRun, (isSome_ofRun?_iff hRun).mpr ?_⟩, hBounds⟩
    rw [hBounds]
    exact hMarker

/-- The line behind a run is no comment, and it is there when another run follows. -/
theorem exists_line_between {sign : List Char} {ls : List (List Char)} {r r' : ℕ × ℕ}
    (h : IsRun sign ls r.1 r.2) (h' : IsRun sign ls r'.1 r'.2) (hBefore : r.2 + 1 < r'.1) :
    ∃ line, ls[r.2 + 1]? = some line ∧ ¬ IsComment sign line := by
  obtain ⟨last, hLast, _⟩ := h'.comment r'.1 le_rfl h'.le
  obtain ⟨hlt, _⟩ := List.getElem?_eq_some_iff.mp hLast
  have hLine : ls[r.2 + 1]? = some ls[r.2 + 1] := List.getElem?_eq_getElem (by omega)
  exact ⟨_, hLine, fun hComment => h.after ⟨_, hLine, hComment⟩⟩

theorem pairwise_openingRuns (marker : List Char) (filename : Path) (sign : List Char)
    (ls : List (List Char)) :
    (openingRuns marker filename (runs (Comment.ofLines sign 0 ls))).Pairwise
      fun r r' => r.2 + 1 < r'.1 :=
  (pairwise_bounds sign ls).sublist (List.filter_sublist.map bounds)

theorem isBlockOf_ofText (config : Config) (filename : Path) (text : List Char) :
    List.Forall₂ (IsBlockOf config.commentPrefix.toList config.marker.toList filename (lines text))
      (openingRuns config.marker.toList filename
        (runs (Comment.ofLines config.commentPrefix.toList 0 (lines text))))
      (ofText config filename text) := by
  rw [ofText_eq_filterMap_runs]
  exact forall₂_openingRuns fun _ h => h

theorem filename_of_mem_ofText {config : Config} {filename : Path} {text : List Char} {b : Block}
    (h : b ∈ ofText config filename text) : b.filename = filename := by
  obtain ⟨r, _, hBlock⟩ := exists_mem_of_forall₂ (isBlockOf_ofText config filename text) h
  exact hBlock.filename_eq

/-- The blocks of a file start on later and later lines. -/
theorem pairwise_line_ofText (config : Config) (filename : Path) (text : List Char) :
    (ofText config filename text).Pairwise fun b b' => b.location.line < b'.location.line := by
  apply pairwise_of_forall₂ (isBlockOf_ofText config filename text) (pairwise_openingRuns _ _ _ _)
  intro r _ r' _ b b' hb hb' hBefore
  have hEnd := hb.le_last
  have hStart := hb'.first_le
  omega

/-- The blocks of a file are those of its maximal runs of comment lines that hold a marker
    line: one for each run, in file order. So the blocks stand in order, there is a line
    between two of them that is no comment, and a document has one line feed for each line
    behind the marker. -/
theorem ofText_runs (config : Config) (filename : Path) (text : List Char) :
    let sign := config.commentPrefix.toList
    let marker := config.marker.toList
    let ls := lines text
    let blocks := ofText config filename text
    (∃ rs : List (ℕ × ℕ),
      (∀ r, r ∈ rs ↔ IsRun sign ls r.1 r.2 ∧ ∃ n, r.1 ≤ n ∧ n ≤ r.2 ∧ MarkerAt sign marker ls n) ∧
      rs.Pairwise (fun r r' => r.2 + 1 < r'.1) ∧
      List.Forall₂ (IsBlockOf sign marker filename ls) rs blocks) ∧
    blocks.Pairwise (fun b b' => ∃ n line, ls[n]? = some line ∧ ¬ IsComment sign line ∧
      b.endLine < n + 1 ∧ n + 1 < b'.location.line) ∧
    ∀ b ∈ blocks, b.location.line ≤ b.endLine ∧
      b.rawText.count '\n' = b.endLine - b.location.line := by
  intro sign marker ls blocks
  have hMem {r : ℕ × ℕ} : r ∈ openingRuns marker filename (runs (Comment.ofLines sign 0 ls)) ↔ _ :=
    mem_openingRuns_iff
  have hOrder := pairwise_openingRuns marker filename sign ls
  have hBlocks : List.Forall₂ (IsBlockOf sign marker filename ls)
      (openingRuns marker filename (runs (Comment.ofLines sign 0 ls))) blocks :=
    isBlockOf_ofText config filename text
  refine ⟨⟨_, fun _ => hMem, hOrder, hBlocks⟩, ?_, ?_⟩
  · apply pairwise_of_forall₂ hBlocks hOrder
    intro r hr r' hr' b b' hb hb' hBefore
    obtain ⟨line, hLine, hNot⟩ := exists_line_between (hMem.mp hr).1 (hMem.mp hr').1 hBefore
    have hEnd := hb.endLine_eq
    have hStart := hb'.first_le
    exact ⟨r.2 + 1, line, hLine, hNot, by omega, by omega⟩
  · intro b hb
    obtain ⟨r, hr, hBlock⟩ := exists_mem_of_forall₂ hBlocks hb
    have hLe : b.location.line ≤ b.endLine := by
      rw [hBlock.endLine_eq]
      exact hBlock.le_last
    have hEnd : b.endLine ≤ (lines text).length := by
      rw [hBlock.endLine_eq]
      exact (hMem.mp hr).1.lt_length
    refine ⟨hLe, ?_⟩
    rw [hBlock.rawText_eq]
    exact count_lineFeed_documentOf (by omega)

end SnippetAudit.Block
