import SnippetAudit.Proofs.Path.Display
import SnippetAudit.Proofs.Tree.Visits

/-!
# The paths of a walk in a report

A report shows a path of a walk by the names that lead to it from the root, each behind a separator.
No name has a separator in it, so the names can be read off what is shown, and no two paths of a walk
are shown alike, whatever way the root is written.

Results:
* `flatMap_separator_inj`: names behind separators can be told apart.
* `display_of_not_isPrefix`: a path that is not below the root is shown as it is written.
* `display_joinAll_and_inj`: what is shown of a path, and that it tells the paths of a walk apart.
-/

namespace SnippetAudit

open Text

namespace Path

/-! ## Names behind separators -/

/-- What stands behind a name is nothing or starts with a separator, so the name ends there. -/
theorem takeWhile_name_append {text : List Char} (h : '/' ∉ text) (texts : List (List Char)) :
    (text ++ texts.flatMap ('/' :: ·)).takeWhile (· ≠ '/') = text ∧
      (text ++ texts.flatMap ('/' :: ·)).dropWhile (· ≠ '/') = texts.flatMap ('/' :: ·) := by
  apply takeWhile_append_of_head?
  · intro c hc
    have hNe : c ≠ '/' := fun hSame => h (hSame ▸ hc)
    simpa using hNe
  · intro c hc
    cases texts with
    | nil => cases hc
    | cons next texts =>
      cases hc
      decide

/-- Names behind separators can be told apart. -/
theorem flatMap_separator_inj {texts texts' : List (List Char)} (h : ∀ t ∈ texts, '/' ∉ t)
    (h' : ∀ t ∈ texts', '/' ∉ t)
    (hSame : texts.flatMap ('/' :: ·) = texts'.flatMap ('/' :: ·)) : texts = texts' := by
  induction texts generalizing texts' with
  | nil =>
    cases texts' with
    | nil => rfl
    | cons text' texts' => cases hSame
  | cons text texts ih =>
    cases texts' with
    | nil => cases hSame
    | cons text' texts' =>
      obtain ⟨hText, hTexts⟩ := List.forall_mem_cons.mp h
      obtain ⟨hText', hTexts'⟩ := List.forall_mem_cons.mp h'
      rw [List.flatMap_cons, List.flatMap_cons, List.cons_append, List.cons_append,
        List.cons_inj_right] at hSame
      obtain ⟨hFirst, hBehind⟩ := takeWhile_name_append hText texts
      obtain ⟨hFirst', hBehind'⟩ := takeWhile_name_append hText' texts'
      rw [hSame] at hFirst hBehind
      have hName : text = text' := hFirst.symm.trans hFirst'
      have hRest : texts = texts' := ih hTexts hTexts' (hBehind.symm.trans hBehind')
      rw [hName, hRest]

/-! ## What is shown -/

/-- A path that is not below the root is shown as it is written. -/
theorem display_of_not_isPrefix {p root : Path} (h : ¬ root.components <+: p.components) :
    p.display root = p.lossyText := by
  have hNone : p.below? root = none := by
    rw [below?, if_neg]
    rw [List.isPrefixOf_iff_prefix]
    exact h
  rw [display, hNone]

/-- Names that are joined to a root can be told from what is shown. -/
theorem eq_of_display_joinAll_eq {root : Path} {texts texts' : List (List Char)}
    (h : ∀ t ∈ texts, IsTextName t) (h' : ∀ t ∈ texts', IsTextName t)
    (hSame : (root.joinAll (texts.map Utf8.encode)).display root =
      (root.joinAll (texts'.map Utf8.encode)).display root) : texts = texts' := by
  rw [display_joinAll root h, display_joinAll root h'] at hSame
  exact flatMap_separator_inj (fun t ht => (h t ht).separator_not_mem)
    (fun t ht => (h' t ht).separator_not_mem) (List.append_cancel_left hSame)

end Path

/-- No two paths of a walk are shown alike. -/
theorem Visit.eq_of_display_eq {fs : FileSystem} (hNames : fs.ListsNames) {depth : ℕ} {root : Path}
    {v : Visit} (hVisit : ofPath? fs depth root = some v) {p q : Path} (hp : p ∈ v.paths)
    (hq : q ∈ v.paths) (h : p.display root = q.display root) : p = q := by
  obtain ⟨⟨_, found⟩, hNode, rfl⟩ := List.mem_map.mp hp
  obtain ⟨⟨_, found'⟩, hNode', rfl⟩ := List.mem_map.mp hq
  obtain ⟨-, texts, hTexts, hPath⟩ := mem_nodes hNames hVisit hNode
  obtain ⟨-, texts', hTexts', hPath'⟩ := mem_nodes hNames hVisit hNode'
  dsimp only at h hPath hPath' ⊢
  rw [hPath, hPath'] at h ⊢
  rw [Path.eq_of_display_joinAll_eq hTexts hTexts' h]

/-- Below any root a path is shown as three dots and the names that are joined to the root, each behind a
    separator, and the root itself as three dots. So what is shown of a path that a walk comes to tells
    which path it is. A path that is not below the root is shown as it is written. -/
theorem Path.display_joinAll_and_inj (root : Path) :
    (∀ texts : List (List Char), (∀ t ∈ texts, IsTextName t) →
      (root.joinAll (texts.map Utf8.encode)).display root =
        ['.', '.', '.'] ++ texts.flatMap ('/' :: ·)) ∧
    root.display root = ['.', '.', '.'] ∧
    (∀ fs : FileSystem, fs.ListsNames → ∀ depth v, Visit.ofPath? fs depth root = some v →
      ∀ p ∈ v.paths, ∀ q ∈ v.paths, p.display root = q.display root → p = q) ∧
    ∀ p : Path, ¬ root.components <+: p.components →
      p.display root = p.lossyText ∧ ∀ text, p = .ofText text → p.display root = text := by
  refine ⟨fun texts h => display_joinAll root h, ?_, ?_, ?_⟩
  · exact @display_joinAll root [] (by simp)
  · intro fs hNames depth v hVisit p hp q hq h
    exact Visit.eq_of_display_eq hNames hVisit hp hq h
  · intro p h
    have hShown : p.display root = p.lossyText := display_of_not_isPrefix h
    refine ⟨hShown, ?_⟩
    rintro text rfl
    rw [hShown, lossyText_ofText]

/-- A root that is written with more than its one name. -/
def Path.untidy : Path := .ofString "lib/.//"

/-- Two entries below `Path.untidy` that differ in what sorts around a separator. -/
def besideSeparator : MemoryTree :=
  .ofList [(.ofString "lib", .directory [['a'], ['a', '-', 'b']]),
    (.ofString "lib/a", .directory [['b']]), (.ofString "lib/a/b", .other),
    (.ofString "lib/a-b", .other)]

/-- Below `Path.untidy` the paths of a walk are told apart, and a path whose text only starts like the root
    is not below it. -/
theorem Path.display_joinAll_and_inj_untidy :
    (untidy.joinAll ([['a'], ['b']].map Utf8.encode)).display untidy = ".../a/b".toList ∧
    untidy.display untidy = "...".toList ∧
    (∀ p ∈ ["lib/.//", "lib/.//a", "lib/.//a/b", "lib/.//a-b"].map ofString,
      ∀ q ∈ ["lib/.//", "lib/.//a", "lib/.//a/b", "lib/.//a-b"].map ofString,
        p.display untidy = q.display untidy → p = q) ∧
    (ofString "lib-a/b").display untidy = "lib-a/b".toList := by
  obtain ⟨hBelow, hRoot, hApart, hBeside⟩ := Path.display_joinAll_and_inj untidy
  have hNames : besideSeparator.fileSystem.ListsNames := MemoryTree.listsNames (by decide)
  have hVisit : Visit.ofPath? besideSeparator.fileSystem 3 untidy =
      some (.node (.ofString "lib/.//") .directory
        [.node (.ofString "lib/.//a") .directory [.node (.ofString "lib/.//a/b") .other []],
          .node (.ofString "lib/.//a-b") .other []]) := by rfl
  exact ⟨(hBelow [['a'], ['b']] (by decide)).trans (by decide), hRoot,
    hApart besideSeparator.fileSystem hNames 3 _ hVisit, (hBeside _ (by decide)).2 _ rfl⟩

end SnippetAudit
