/-!
# Locations in a source file

A location is the number of a line, counted from one.

Results:
* `line_ofIndex`, `ofWord_eq_ofIndex`: the line of an index is the next number, unless the index is
  the last 64-bit word.
* `compare_eq_iff`: the order of locations is that of their lines.
-/

namespace SnippetAudit

/-- A line of a file, counted from one (`SourceLocation`). -/
structure Location where
  line : Nat
  line_pos : 0 < line
  deriving DecidableEq, Repr

namespace Location

/-- The location with a line number (`SourceLocation::new`); there is no line zero. -/
def ofLine? (line : Nat) : Option Location :=
  if h : 0 < line then some ⟨line, h⟩ else none

/-- The location of the line with an index counted from zero (`SourceLocation::from_index`). -/
def ofIndex (index : Nat) : Location := ⟨index + 1, Nat.succ_pos index⟩

/-- The location of the line whose index is held in a 64-bit word. The last word stands for a line
    number that no word holds, and is taken as the line before it. -/
def ofWord (index : UInt64) : Location :=
  ⟨min (index.toNat + 1) (UInt64.size - 1), Nat.lt_min.mpr ⟨Nat.succ_pos _, by decide⟩⟩

/-- The text of a location. -/
def text (l : Location) : String := toString l.line

/-- The order of locations. -/
def compare (a b : Location) : Ordering := Ord.compare a.line b.line

/-! ## Lemmas -/

@[simp] theorem line_ofIndex (index : Nat) : (ofIndex index).line = index + 1 := rfl

theorem ofWord_eq_ofIndex {index : UInt64} (h : index.toNat < UInt64.size - 1) :
    ofWord index = ofIndex index.toNat := by
  simp only [ofWord, ofIndex, mk.injEq]
  omega

theorem ofLine?_eq_none_iff {line : Nat} : ofLine? line = none ↔ line = 0 := by
  unfold ofLine?
  split <;> simp <;> omega

theorem ext_line {a b : Location} (h : a.line = b.line) : a = b := by
  cases a; cases b; simp_all

theorem compare_eq_iff {a b : Location} : a.compare b = .eq ↔ a = b := by
  rw [compare, Nat.compare_eq_eq]
  exact ⟨ext_line, fun h => by rw [h]⟩

end Location

end SnippetAudit
