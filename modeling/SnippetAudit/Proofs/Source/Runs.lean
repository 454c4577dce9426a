import Mathlib.Data.List.SplitBy
import Mathlib.Tactic.ByContra
import SnippetAudit.Source.Block

/-!
# Runs of comment lines

Specification of comment lines and of maximal runs of them over the lines of a file, the runs
that the comments of a file fall into, and the block that a run opens.

The two loops of `Block.ofComments` share a cursor. At the start of a run the outer loop passes over
the comments before the first marker; there the inner loop takes the rest of the run, however many
markers are in it, and the cursor stands at the start of the next run. So the loops give the
blocks of the runs.

Lines are counted from zero here; a line number in a block is one more.

Results:
* `follow_append`: the inner loop takes the comments on consecutive lines, and stops behind them.
* `ofComments_append`: the outer loop gives the block of a run, and goes on at the next run.
* `ofText_eq_filterMap_runs`: the blocks of a file are those of the runs of its comments.
* `mem_ofLines_zero_iff`: the comments of a file are its comment lines with their texts.
* `isRun_bounds`: every run that is cut is a maximal run of comment lines.
* `exists_run_of_isRun`: every maximal run of comment lines is cut.
* `pairwise_bounds`: the runs stand in file order, with a line between two of them.
-/

namespace SnippetAudit.Block

open Text

/-! ## Specification -/

/-- A comment line: trimmed, it starts with the comment sign. -/
def IsComment (sign line : List Char) : Prop := sign <+: trim line

instance (sign line : List Char) : Decidable (IsComment sign line) :=
  inferInstanceAs (Decidable (sign <+: trim line))

/-- What stands behind the comment sign. -/
def commentText (sign line : List Char) : List Char := (trim line).drop sign.length

/-- A line that opens a block: a comment whose text starts, after blanks, with the marker. -/
def IsMarkerLine (sign marker line : List Char) : Prop :=
  IsComment sign line ∧ marker <+: trimStart (commentText sign line)

/-- The line with index `n` is a comment. -/
def CommentAt (sign : List Char) (ls : List (List Char)) (n : ℕ) : Prop :=
  ∃ line, ls[n]? = some line ∧ IsComment sign line

/-- The line with index `n` opens a block. -/
def MarkerAt (sign marker : List Char) (ls : List (List Char)) (n : ℕ) : Prop :=
  ∃ line, ls[n]? = some line ∧ IsMarkerLine sign marker line

/-- The lines from `first` to `last` are comments, and no line next to them is one. -/
structure IsRun (sign : List Char) (ls : List (List Char)) (first last : ℕ) : Prop where
  le : first ≤ last
  comment : ∀ n, first ≤ n → n ≤ last → CommentAt sign ls n
  before : ∀ n, n + 1 = first → ¬ CommentAt sign ls n
  after : ¬ CommentAt sign ls (last + 1)

/-- The comments cut into runs of consecutive lines. -/
def runs (comments : List Comment) : List (List Comment) :=
  comments.splitBy fun a b => b.index == a.index + 1

/-- The block that a run of comments opens: that of its first marker, with the comments behind it. -/
def ofRun? (filename : Path) (marker : List Char) (run : List Comment) : Option Block :=
  match run.dropWhile (!isMarker marker ·) with
  | [] => none
  | head :: rest => some {
      filename
      location := .ofIndex head.index
      endLine := head.index + rest.length + 1
      rawText := unlines (rest.map documentLine) }

/-! ## Maximal runs -/

/-- Two maximal runs that share a line are the same. -/
theorem IsRun.unique {sign : List Char} {ls : List (List Char)} {first last first' last' n : ℕ}
    (h : IsRun sign ls first last) (h' : IsRun sign ls first' last') (hn : first ≤ n ∧ n ≤ last)
    (hn' : first' ≤ n ∧ n ≤ last') : first = first' ∧ last = last' := by
  have hFirst : first = first' := by
    by_contra hne
    rcases Nat.lt_or_gt_of_ne hne with hlt | hlt
    · exact h'.before (first' - 1) (by omega) (h.comment _ (by omega) (by omega))
    · exact h.before (first - 1) (by omega) (h'.comment _ (by omega) (by omega))
  have hLast : last = last' := by
    by_contra hne
    rcases Nat.lt_or_gt_of_ne hne with hlt | hlt
    · exact h.after (h'.comment _ (by omega) (by omega))
    · exact h'.after (h.comment _ (by omega) (by omega))
  exact ⟨hFirst, hLast⟩

/-- A run ends within the file. -/
theorem IsRun.lt_length {sign : List Char} {ls : List (List Char)} {first last : ℕ}
    (h : IsRun sign ls first last) : last < ls.length := by
  obtain ⟨line, hLine, _⟩ := h.comment last h.le le_rfl
  exact (List.getElem?_eq_some_iff.mp hLine).1

/-! ## The comments of a file -/

theorem value?_eq_some_iff {sign line value : List Char} :
    Comment.value? sign line = some value ↔ IsComment sign line ∧ value = commentText sign line := by
  unfold Comment.value? IsComment commentText
  rw [Comment.after?_eq_some_iff]
  constructor
  · intro h
    rw [h]
    exact ⟨List.prefix_append .., (List.drop_left).symm⟩
  · rintro ⟨⟨rest, hRest⟩, rfl⟩
    rw [← hRest, List.drop_left]

/-- The comments of a file are its comment lines with their texts. -/
theorem mem_ofLines_zero_iff {sign : List Char} {ls : List (List Char)} {c : Comment} :
    c ∈ Comment.ofLines sign 0 ls ↔
      ∃ line, ls[c.index]? = some line ∧ IsComment sign line ∧ c.value = commentText sign line := by
  rw [Comment.mem_ofLines_iff]
  simp only [Option.bind_eq_some_iff, value?_eq_some_iff, Nat.zero_add]
  constructor
  · rintro ⟨k, rfl, h⟩
    exact h
  · intro h
    exact ⟨_, rfl, h⟩

theorem commentAt_iff {sign : List Char} {ls : List (List Char)} {n : ℕ} :
    CommentAt sign ls n ↔ ∃ c ∈ Comment.ofLines sign 0 ls, c.index = n := by
  constructor
  · rintro ⟨line, hLine, hComment⟩
    exact ⟨⟨n, commentText sign line⟩, mem_ofLines_zero_iff.mpr ⟨line, hLine, hComment, rfl⟩, rfl⟩
  · rintro ⟨c, hc, rfl⟩
    obtain ⟨line, hLine, hComment, _⟩ := mem_ofLines_zero_iff.mp hc
    exact ⟨line, hLine, hComment⟩

/-- A comment is a marker iff its line is. -/
theorem isMarker_iff {sign marker : List Char} {ls : List (List Char)} {c : Comment}
    (hc : c ∈ Comment.ofLines sign 0 ls) :
    isMarker marker c = true ↔ MarkerAt sign marker ls c.index := by
  obtain ⟨line, hLine, hComment, hValue⟩ := mem_ofLines_zero_iff.mp hc
  unfold isMarker MarkerAt IsMarkerLine
  rw [List.isPrefixOf_iff_prefix, hValue]
  constructor
  · intro h
    exact ⟨line, hLine, hComment, h⟩
  · rintro ⟨line', hLine', _, h⟩
    rw [hLine] at hLine'
    cases hLine'
    exact h

theorem index_le_of_mem_ofLines {sign : List Char} {ls : List (List Char)} {i : ℕ} {c : Comment}
    (h : c ∈ Comment.ofLines sign i ls) : i ≤ c.index := by
  obtain ⟨k, hk, _⟩ := Comment.mem_ofLines_iff.mp h
  omega

theorem pairwise_ofLines (sign : List Char) (i : ℕ) (ls : List (List Char)) :
    (Comment.ofLines sign i ls).Pairwise fun a b => a.index < b.index := by
  induction ls generalizing i with
  | nil => exact List.Pairwise.nil
  | cons line ls ih =>
    rw [Comment.ofLines]
    split
    · refine List.pairwise_cons.mpr ⟨?_, ih (i + 1)⟩
      intro c hc
      have := index_le_of_mem_ofLines hc
      simp only
      omega
    · exact ih (i + 1)

/-! ## Cutting into runs -/

/-- The indices of the first and the last comment of a run. -/
def bounds : List Comment → ℕ × ℕ
  | [] => (0, 0)
  | c :: rest => (c.index, c.index + rest.length)

/-- The comments of a run have consecutive indices. -/
theorem map_index_eq_range' {c : Comment} {rest : List Comment}
    (h : (c :: rest).IsChain fun a b => (b.index == a.index + 1) = true) :
    (c :: rest).map (·.index) = List.range' c.index (rest.length + 1) := by
  induction rest generalizing c with
  | nil => rfl
  | cons d rest ih =>
    obtain ⟨hNext, hRest⟩ := List.isChain_cons_cons.mp h
    rw [List.length_cons, List.range'_succ, List.map_cons, ih hRest, eq_of_beq hNext]

/-! ## The loops -/

/-- The inner loop takes the comments on the lines behind the last one, and stops at a comment that
    does not stand on the next line. -/
theorem follow_append {last : ℕ} {run left : List Comment} (rawText : List Char)
    (hIndex : run.map (·.index) = List.range' (last + 1) run.length)
    (hBreak : ∀ next ∈ left.head?, next.index ≠ last + run.length + 1) :
    follow last rawText (run ++ left) =
      (last + run.length, rawText ++ unlines (run.map documentLine), left) := by
  induction run generalizing last rawText with
  | nil =>
    cases left with
    | nil => simp [follow, unlines]
    | cons next left =>
      have hStop : next.index ≠ last + 1 := hBreak next rfl
      simp [follow, hStop, unlines]
  | cons c run ih =>
    rw [List.map_cons, List.length_cons, List.range'_succ] at hIndex
    obtain ⟨hNext, hRest⟩ := List.cons.inj hIndex
    rw [← hNext] at hRest
    have hBreak' : ∀ next ∈ left.head?, next.index ≠ c.index + run.length + 1 := by
      intro next hMem
      have := hBreak next hMem
      rw [List.length_cons] at this
      omega
    rw [List.cons_append, follow, if_pos hNext, ih _ hRest hBreak', List.length_cons, hNext,
      List.map_cons]
    simp only [unlines, List.flatMap_cons, List.append_assoc, Prod.mk.injEq, and_true]
    omega

theorem ofRun?_cons_of_marker {filename : Path} {marker : List Char} {c : Comment}
    (run : List Comment) (h : isMarker marker c = true) :
    ofRun? filename marker (c :: run) =
      some ⟨filename, .ofIndex c.index, c.index + run.length + 1, unlines (run.map documentLine)⟩ := by
  rw [ofRun?, List.dropWhile_cons_of_neg (by simp [h])]

theorem ofRun?_cons_of_not_marker {filename : Path} {marker : List Char} {c : Comment}
    (run : List Comment) (h : isMarker marker c = false) :
    ofRun? filename marker (c :: run) = ofRun? filename marker run := by
  rw [ofRun?, ofRun?, List.dropWhile_cons_of_pos (by simp [h])]

/-- A run opens no block iff it has no marker. -/
theorem ofRun?_eq_none_iff {filename : Path} {marker : List Char} {run : List Comment} :
    ofRun? filename marker run = none ↔ ∀ c ∈ run, isMarker marker c = false := by
  induction run with
  | nil => simp [ofRun?]
  | cons c run ih =>
    cases h : isMarker marker c with
    | true => simp [ofRun?_cons_of_marker run h, h]
    | false => simp [ofRun?_cons_of_not_marker run h, ih, h]

/-- The outer loop gives the block of a run, if there is one, and goes on behind the run. -/
theorem ofComments_append (filename : Path) (marker : List Char) {run left : List Comment}
    (hRun : run.IsChain fun a b => (b.index == a.index + 1) = true)
    (hBreak : ∀ last ∈ run.getLast?, ∀ next ∈ left.head?, next.index ≠ last.index + 1) :
    ofComments filename marker (run ++ left) =
      (ofRun? filename marker run).toList ++ ofComments filename marker left := by
  induction run with
  | nil => rfl
  | cons c run ih =>
    rw [List.cons_append]
    cases hMarker : isMarker marker c with
    | true =>
      have hMap := map_index_eq_range' hRun
      have hLast : ((c :: run).map (·.index)).getLast? = some (c.index + run.length) := by
        rw [hMap, List.getLast?_range', if_neg (Nat.succ_ne_zero _)]
        congr 1
      rw [List.getLast?_map, Option.map_eq_some_iff] at hLast
      obtain ⟨last, hMem, hIndex⟩ := hLast
      rw [List.map_cons, List.range'_succ] at hMap
      have hFollow := follow_append [] (List.cons.inj hMap).2
        fun next hNext => hIndex ▸ hBreak last hMem next hNext
      rw [ofComments_cons_of_marker _ hMarker, hFollow, ofRun?_cons_of_marker run hMarker]
      rfl
    | false =>
      have hBehind : ∀ last ∈ run.getLast?, ∀ next ∈ left.head?, next.index ≠ last.index + 1 := by
        cases run with
        | nil => simp
        | cons d run => exact fun last hMem => hBreak last (by rwa [List.getLast?_cons_cons])
      rw [ofComments_cons_of_not_marker _ hMarker, ofRun?_cons_of_not_marker run hMarker,
        ih hRun.tail hBehind]

/-- The loops give the blocks of runs between which lines are missing. -/
theorem ofComments_flatten (filename : Path) (marker : List Char) (rs : List (List Comment))
    (hRuns : ∀ run ∈ rs, run.IsChain fun a b => (b.index == a.index + 1) = true)
    (hBreak : rs.IsChain fun run run' => ∃ hne hne',
      ((run'.head hne').index == (run.getLast hne).index + 1) = false) :
    ofComments filename marker rs.flatten = rs.filterMap (ofRun? filename marker) := by
  induction rs with
  | nil => simp
  | cons run rs ih =>
    have hEnd : ∀ last ∈ run.getLast?, ∀ next ∈ rs.flatten.head?, next.index ≠ last.index + 1 := by
      cases rs with
      | nil => simp
      | cons run' rs =>
        obtain ⟨⟨hRun, hRun', hGap⟩, _⟩ := List.isChain_cons_cons.mp hBreak
        intro last hLast next hNext
        rw [List.getLast?_eq_some_getLast hRun, Option.mem_some_iff] at hLast
        rw [List.flatten_cons, List.head?_append_of_ne_nil _ hRun', List.head?_eq_some_head hRun',
          Option.mem_some_iff] at hNext
        rw [← hLast, ← hNext]
        simpa using hGap
    rw [List.flatten_cons, ofComments_append filename marker (hRuns run List.mem_cons_self) hEnd,
      ih (fun r hr => hRuns r (List.mem_cons_of_mem _ hr)) hBreak.tail]
    cases h : ofRun? filename marker run <;> simp [h]

/-- The blocks of a file are those of the runs of its comments. -/
theorem ofText_eq_filterMap_runs (config : Config) (filename : Path) (text : List Char) :
    ofText config filename text =
      (runs (Comment.ofText config.commentPrefix.toList text)).filterMap
        (ofRun? filename config.marker.toList) := by
  have hLoops := ofComments_flatten filename config.marker.toList
    (runs (Comment.ofText config.commentPrefix.toList text))
    (fun run hRun => List.isChain_of_mem_splitBy hRun)
    (List.isChain_getLast_head_splitBy (fun a b : Comment => b.index == a.index + 1) _)
  rwa [runs, List.flatten_splitBy] at hLoops

/-! ## Runs are apart -/

/-- In ascending order no comment lies behind the last one. -/
theorem index_le_getLast {run : List Comment} (h : run.Pairwise fun a b => a.index < b.index)
    (hne : run ≠ []) {c : Comment} (hc : c ∈ run) : c.index ≤ (run.getLast hne).index := by
  rw [← List.dropLast_append_getLast hne] at h hc
  rcases List.mem_append.mp hc with hc | hc
  · have := (List.pairwise_append.mp h).2.2 c hc _ (List.mem_singleton_self _)
    omega
  · rw [List.mem_singleton.mp hc]

theorem head_index_le {run : List Comment} (h : run.Pairwise fun a b => a.index < b.index)
    (hne : run ≠ []) {c : Comment} (hc : c ∈ run) : (run.head hne).index ≤ c.index := by
  cases run with
  | nil => exact absurd rfl hne
  | cons d run =>
    rcases List.mem_cons.mp hc with rfl | hc
    · exact le_rfl
    · have := (List.pairwise_cons.mp h).1 c hc
      rw [List.head_cons]
      omega

/-- Between two runs there is an index that neither holds. -/
def Apart (run run' : List Comment) : Prop := ∀ a ∈ run, ∀ b ∈ run', a.index + 1 < b.index

theorem pairwise_apart {rs : List (List Comment)} (hne : [] ∉ rs)
    (hSorted : rs.flatten.Pairwise fun a b => a.index < b.index)
    (hBreak : rs.IsChain fun run run' => ∃ hne hne',
      ((run'.head hne').index == (run.getLast hne).index + 1) = false) : rs.Pairwise Apart := by
  induction rs with
  | nil => exact List.Pairwise.nil
  | cons run rs ih =>
    obtain ⟨hRuns, hBetween⟩ := List.pairwise_flatten.mp hSorted
    obtain ⟨hAbove, hBetween⟩ := List.pairwise_cons.mp hBetween
    have hRest : rs.flatten.Pairwise fun a b => a.index < b.index :=
      List.pairwise_flatten.mpr ⟨fun r hr => hRuns r (List.mem_cons_of_mem _ hr), hBetween⟩
    refine List.pairwise_cons.mpr ⟨?_, ih (fun h => hne (List.mem_cons_of_mem _ h)) hRest hBreak.tail⟩
    cases rs with
    | nil => simp
    | cons next rs =>
      obtain ⟨⟨hRun, hNext, hGap⟩, _⟩ := List.isChain_cons_cons.mp hBreak
      intro run' hRun' a ha b hb
      rcases List.mem_cons.mp hRun' with rfl | hLater
      · -- the next run: its first index is not the one behind the last of `run`
        have h1 := index_le_getLast (hRuns run List.mem_cons_self) hRun ha
        have h2 := head_index_le (hRuns run' (by simp)) hNext hb
        have h3 := hAbove run' List.mem_cons_self _ (List.getLast_mem hRun) _ (List.head_mem hNext)
        have h4 : (run'.head hNext).index ≠ (run.getLast hRun).index + 1 := by
          simpa using hGap
        omega
      · -- a later run: the next run lies between
        have h1 := hAbove next List.mem_cons_self a ha _ (List.head_mem hNext)
        have h2 := (List.pairwise_cons.mp hBetween).1 run' hLater _ (List.head_mem hNext) b hb
        omega

/-! ## Runs of a file -/

theorem flatten_runs (comments : List Comment) : (runs comments).flatten = comments :=
  List.flatten_splitBy _ _

theorem pairwise_apart_runs (sign : List Char) (ls : List (List Char)) :
    (runs (Comment.ofLines sign 0 ls)).Pairwise Apart := by
  apply pairwise_apart
  · exact List.nil_notMem_splitBy _ _
  · rw [flatten_runs]
    exact pairwise_ofLines sign 0 ls
  · exact List.isChain_getLast_head_splitBy (fun a b : Comment => b.index == a.index + 1) _

/-- A run is not empty, and its indices are those from its first to its last one. -/
theorem mem_runs_cons {comments run : List Comment} (h : run ∈ runs comments) :
    ∃ c rest, run = c :: rest ∧ run.map (·.index) = List.range' c.index (rest.length + 1) := by
  cases run with
  | nil => exact absurd h (List.nil_notMem_splitBy _ _)
  | cons c rest => exact ⟨c, rest, rfl, map_index_eq_range' (List.isChain_of_mem_splitBy h)⟩

/-- The indices of a run are those within its bounds. -/
theorem mem_run_iff_bounds {comments run : List Comment} (h : run ∈ runs comments) {n : ℕ} :
    (∃ c ∈ run, c.index = n) ↔ (bounds run).1 ≤ n ∧ n ≤ (bounds run).2 := by
  obtain ⟨c, rest, rfl, hMap⟩ := mem_runs_cons h
  rw [← List.mem_map, hMap, List.mem_range'_1]
  simp only [bounds]
  omega

theorem mem_of_mem_runs {comments run : List Comment} (h : run ∈ runs comments) {c : Comment}
    (hc : c ∈ run) : c ∈ comments := by
  rw [← flatten_runs comments]
  exact List.mem_flatten.mpr ⟨run, h, hc⟩

/-- Runs with neighbouring indices are one run. -/
theorem eq_of_index_le_succ {sign : List Char} {ls : List (List Char)} {run run' : List Comment}
    (h : run ∈ runs (Comment.ofLines sign 0 ls)) (h' : run' ∈ runs (Comment.ofLines sign 0 ls))
    {a b : Comment} (ha : a ∈ run) (hb : b ∈ run') (hab : a.index ≤ b.index + 1)
    (hba : b.index ≤ a.index + 1) : run = run' := by
  obtain ⟨i, hi, rfl⟩ := List.getElem_of_mem h
  obtain ⟨j, hj, rfl⟩ := List.getElem_of_mem h'
  have hApart := List.pairwise_iff_getElem.mp (pairwise_apart_runs sign ls)
  rcases Nat.lt_trichotomy i j with hlt | rfl | hlt
  · have := hApart i j hi hj hlt a ha b hb
    omega
  · rfl
  · have := hApart j i hj hi hlt b hb a ha
    omega

/-- Every run that is cut is a maximal run of comment lines. -/
theorem isRun_bounds {sign : List Char} {ls : List (List Char)} {run : List Comment}
    (h : run ∈ runs (Comment.ofLines sign 0 ls)) :
    IsRun sign ls (bounds run).1 (bounds run).2 := by
  have hIndex {n : ℕ} := mem_run_iff_bounds h (n := n)
  -- a comment line next to the run would be a comment of the same run
  have hNext {a : Comment} (ha : a ∈ run) {n : ℕ} (hn : CommentAt sign ls n) (h1 : a.index ≤ n + 1)
      (h2 : n ≤ a.index + 1) : (bounds run).1 ≤ n ∧ n ≤ (bounds run).2 := by
    obtain ⟨b, hb, rfl⟩ := commentAt_iff.mp hn
    rw [← flatten_runs (Comment.ofLines sign 0 ls), List.mem_flatten] at hb
    obtain ⟨run', hRun', hb⟩ := hb
    have hSame := eq_of_index_le_succ h hRun' ha hb h1 h2
    exact hIndex.mp ⟨b, hSame ▸ hb, rfl⟩
  have hLe : (bounds run).1 ≤ (bounds run).2 := by
    obtain ⟨c, rest, rfl, _⟩ := mem_runs_cons h
    exact Nat.le_add_right ..
  obtain ⟨first, hFirst, hFirstIndex⟩ := hIndex.mpr ⟨le_rfl, hLe⟩
  obtain ⟨last, hLast, hLastIndex⟩ := hIndex.mpr ⟨hLe, le_rfl⟩
  refine ⟨hLe, ?_, ?_, ?_⟩
  · intro n h1 h2
    obtain ⟨c, hc, rfl⟩ := hIndex.mpr ⟨h1, h2⟩
    exact commentAt_iff.mpr ⟨c, mem_of_mem_runs h hc, rfl⟩
  · intro n hn hComment
    have := hNext hFirst hComment (by omega) (by omega)
    omega
  · intro hComment
    have := hNext hLast hComment (by omega) (by omega)
    omega

/-- Every maximal run of comment lines is cut. -/
theorem exists_run_of_isRun {sign : List Char} {ls : List (List Char)} {first last : ℕ}
    (h : IsRun sign ls first last) :
    ∃ run ∈ runs (Comment.ofLines sign 0 ls), bounds run = (first, last) := by
  obtain ⟨c, hc, hIndex⟩ := commentAt_iff.mp (h.comment first le_rfl h.le)
  rw [← flatten_runs (Comment.ofLines sign 0 ls), List.mem_flatten] at hc
  obtain ⟨run, hRun, hc⟩ := hc
  have hBounds := (mem_run_iff_bounds hRun).mp ⟨c, hc, hIndex⟩
  obtain ⟨hFirst, hLast⟩ := (isRun_bounds hRun).unique h hBounds ⟨le_rfl, h.le⟩
  exact ⟨run, hRun, Prod.ext hFirst hLast⟩

/-- The runs stand in file order, with a line between two of them. -/
theorem pairwise_bounds (sign : List Char) (ls : List (List Char)) :
    ((runs (Comment.ofLines sign 0 ls)).map bounds).Pairwise fun r r' => r.2 + 1 < r'.1 := by
  rw [List.pairwise_map]
  refine (pairwise_apart_runs sign ls).imp_of_mem ?_
  intro run run' hRun hRun' hApart
  obtain ⟨a, ha, hLast⟩ := (mem_run_iff_bounds hRun).mpr ⟨(isRun_bounds hRun).le, le_rfl⟩
  obtain ⟨b, hb, hFirst⟩ := (mem_run_iff_bounds hRun').mpr ⟨le_rfl, (isRun_bounds hRun').le⟩
  have := hApart a ha b hb
  omega

end SnippetAudit.Block
