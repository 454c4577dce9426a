import Mathlib.Data.List.Infix
import SnippetAudit.Proofs.Lists
import SnippetAudit.Yaml.TokenQueue

/-!
# What the reader of tokens keeps

Moving on in a text leaves an end of it. Between two tokens only the cursor moves, and the notes on
implicit keys touch nothing else.

Results:
* `skipSeparation_suffix`: skipping what separates tokens changes the cursor, and whether a key may
  start.
* `dropKey_eq`, `dropStaleKeys_eq`, `saveKey_eq`: what is noted about keys.
* `closeBlocks_eq`: where no block is open none is closed.
-/

namespace SnippetAudit.Yaml

namespace Cursor

variable {cur : Cursor}

theorem skipWhile_suffix (cur : Cursor) (test : Char → Bool) :
    (cur.skipWhile test).rest <:+ cur.rest :=
  List.dropWhile_suffix test

theorem advance_suffix (cur : Cursor) (n : Nat) : (cur.advance n).rest <:+ cur.rest :=
  List.drop_suffix n cur.rest

theorem nextLine_suffix (cur : Cursor) : cur.nextLine.rest <:+ cur.rest := by
  unfold nextLine
  split
  · rename_i h
    rw [h]
    exact ⟨['\r', '\n'], rfl⟩
  · rename_i h
    rw [h]
    exact List.suffix_cons _ _
  · exact List.suffix_refl _

theorem skipComment_suffix (cur : Cursor) : cur.skipComment.rest <:+ cur.rest := by
  unfold skipComment
  split
  · exact skipWhile_suffix cur _
  · exact List.suffix_refl _

end Cursor

namespace TokenQueue

variable {s s' : TokenQueue}

theorem skipSeparation_suffix (fuel : Nat) (s : TokenQueue) :
    (s.skipSeparation fuel).cursor.rest <:+ s.cursor.rest ∧
      ∃ cursor keyAllowed, s.skipSeparation fuel = { s with cursor, keyAllowed } := by
  induction fuel generalizing s with
  | zero => exact ⟨List.suffix_refl _, _, _, rfl⟩
  | succ fuel ih =>
    rw [skipSeparation]
    generalize hCur : Cursor.skipComment _ = cur
    have hSuffix : cur.rest <:+ s.cursor.rest := by
      rw [← hCur]
      refine (Cursor.skipComment_suffix _).trans ((Cursor.skipWhile_suffix _ _).trans ?_)
      split
      · exact Cursor.advance_suffix s.cursor 1
      · exact List.suffix_refl _
    split
    · obtain ⟨hMore, cursor, keyAllowed, hEq⟩ :=
        ih { s with cursor := cur.nextLine, keyAllowed := s.keyAllowed || !s.inFlow }
      exact ⟨hMore.trans ((Cursor.nextLine_suffix cur).trans hSuffix), cursor, keyAllowed, hEq⟩
    · exact ⟨hSuffix, cur, s.keyAllowed, rfl⟩

theorem dropKey_eq (h : s.dropKey = .ok s') : ∃ keys, s' = { s with keys } := by
  unfold dropKey at h
  split at h
  · cases h
    exact ⟨_, rfl⟩
  · obtain ⟨k, _, h⟩ := bind_eq_ok_iff.mp h
    cases h
    exact ⟨_, rfl⟩

theorem dropStaleKeys_eq (h : s.dropStaleKeys = .ok s') : ∃ keys, s' = { s with keys } := by
  obtain ⟨keys, _, h⟩ := bind_eq_ok_iff.mp h
  cases h
  exact ⟨_, rfl⟩

theorem saveKey_eq (h : s.saveKey = .ok s') : ∃ keys, s' = { s with keys } := by
  unfold saveKey at h
  split at h
  · obtain ⟨t, hDrop, h⟩ := bind_eq_ok_iff.mp h
    obtain ⟨keys, rfl⟩ := dropKey_eq hDrop
    cases h
    exact ⟨_, rfl⟩
  · cases h
    exact ⟨_, rfl⟩

theorem closeBlocks_eq (s : TokenQueue) (column : Option Nat) (h : s.blocks = []) :
    s.closeBlocks column = s := by
  obtain ⟨fuel, cursor, queue, handed, blocks, keys, keyAllowed⟩ := s
  obtain rfl : blocks = [] := h
  simp [closeBlocks]

end TokenQueue

end SnippetAudit.Yaml
