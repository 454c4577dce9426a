import SnippetAudit.Text.Utf8

/-!
# Paths

A path is the bytes it is written with. Two paths are the same place when they
have the same components: repeated and trailing separators and `.` inside a path
count for nothing, while a leading `.` is a component and `..` is kept.

A path is cut into a *lead* (the root, or a leading `.`) and a *body*, the parts
between separators. Parts that count for nothing stay in the body, so that what
remains of a path below another can be given back as it was written.

Results:
* `lossyText_ofText`: a path written as text has that text.
* `cut_bytes`, `joinParts_splitParts`: lead and body hold all that is written.
-/

namespace SnippetAudit

open Text

/-- A path, as the bytes it is written with. -/
structure Path where
  bytes : List UInt8
  deriving DecidableEq, Repr

namespace Path

/-- The separator of path components. -/
def separator : UInt8 := 0x2F

/-- The path written as `text`. -/
def ofText (text : List Char) : Path := ⟨Utf8.encode text⟩

/-- The path written as `text`. -/
def ofString (text : String) : Path := ofText text.toList

/-- The text of a path, with U+FFFD for what is no text. -/
def lossyText (p : Path) : List Char := Utf8.decodeLossy p.bytes

/-! ## Components -/

/-- One component of a path. -/
inductive Component where
  | root
  | here
  | up
  | name (bytes : List UInt8)
  deriving DecidableEq, Repr

/-- The first component where it is not a part of the body. -/
inductive Lead where
  | none
  | root
  | here
  deriving DecidableEq, Repr

/-- The parts of a byte sequence between separators; there is always one more part than separators. -/
def splitParts : List UInt8 → List (List UInt8)
  | [] => [[]]
  | b :: bytes =>
    if b = separator then [] :: splitParts bytes
    else
      match splitParts bytes with
      | [] => [[b]]
      | part :: parts => (b :: part) :: parts

/-- The parts put together again. -/
def joinParts : List (List UInt8) → List UInt8
  | [] => []
  | [part] => part
  | part :: parts => part ++ separator :: joinParts parts

/-- The lead of a path and the bytes behind it. -/
def cut (p : Path) : Lead × List UInt8 :=
  match p.bytes with
  | 0x2F :: rest => (.root, rest)
  | [0x2E] => (.here, [])
  | 0x2E :: 0x2F :: rest => (.here, 0x2F :: rest)
  | bytes => (.none, bytes)

/-- The parts of a path behind its lead. -/
def body (p : Path) : List (List UInt8) := splitParts p.cut.2

/-- The component that a part of the body stands for; an empty part and `.` stand for none. -/
def partComponent? (part : List UInt8) : Option Component :=
  if part = [] ∨ part = [0x2E] then none
  else if part = [0x2E, 0x2E] then some .up
  else some (.name part)

/-- The component that a lead stands for. -/
def Lead.components : Lead → List Component
  | .none => []
  | .root => [.root]
  | .here => [.here]

/-- The bytes of a lead. -/
def Lead.bytes : Lead → List UInt8
  | .none => []
  | .root => [0x2F]
  | .here => [0x2E]

/-- The components of a path, by which paths are told apart. -/
def components (p : Path) : List Component :=
  p.cut.1.components ++ p.body.filterMap partComponent?

/-- Whether a path starts at the root. -/
def isAbsolute (p : Path) : Bool := p.bytes.head? == some separator

/-- The name a path ends in; a path that ends in `..`, in a leading `.` or at the root has none. -/
def fileName? (p : Path) : Option (List UInt8) :=
  match p.components.getLast? with
  | some (.name bytes) => some bytes
  | _ => none

/-! ## Order -/

/-- The order of components: the root, a leading `.`, `..`, and names by their bytes. -/
def Component.rank : Component → Nat
  | .root => 0
  | .here => 1
  | .up => 2
  | .name _ => 3

/-- Compares two components. -/
def Component.compare : Component → Component → Ordering
  | .name a, .name b => List.compareLex Ord.compare a b
  | a, b => Ord.compare a.rank b.rank

/-- Compares two paths by their components. -/
def compare (p q : Path) : Ordering :=
  List.compareLex Component.compare p.components q.components

/-! ## Joining and what lies below -/

/-- The path of the entry `name` of the directory `p`. An absolute name stands for itself. -/
def join (p name : Path) : Path :=
  if name.isAbsolute then name
  else if p.bytes.getLast?.all (· == separator) then ⟨p.bytes ++ name.bytes⟩
  else ⟨p.bytes ++ separator :: name.bytes⟩

/-- Whether a part stands for no component. -/
def isIdle (part : List UInt8) : Bool := (partComponent? part).isNone

/-- The parts that are left when the first `n` components of a body are taken away. -/
def dropComponents : Nat → List (List UInt8) → List (List UInt8)
  | 0, parts => parts
  | _ + 1, [] => []
  | n + 1, part :: parts => if isIdle part then dropComponents (n + 1) parts else dropComponents n parts

/-- The parts without the idle ones at the end. -/
def dropIdleEnd (parts : List (List UInt8)) : List (List UInt8) :=
  (parts.reverse.dropWhile isIdle).reverse

/-- What is left of `p` below `base`, as written but for separators and `.` at its ends; `none` when
    `p` does not lie below `base`. Below a base without components a path keeps its lead. -/
def below? (p base : Path) : Option Path :=
  if base.components.isPrefixOf p.components then
    if base.components.isEmpty then
      some ⟨p.cut.1.bytes ++ joinParts (dropIdleEnd p.body)⟩
    else
      let taken := base.components.length - p.cut.1.components.length
      some ⟨joinParts (dropIdleEnd ((dropComponents taken p.body).dropWhile isIdle))⟩
  else none

/-- The text of a path in a report (`display_path`): what lies below the checked root is written
    behind `...`. -/
def display (p root : Path) : List Char :=
  match p.below? root with
  | none => p.lossyText
  | some rest => if rest.bytes.isEmpty then ['.', '.', '.'] else ['.', '.', '.', '/'] ++ rest.lossyText

/-! ## Lemmas -/

@[simp] theorem lossyText_ofText (text : List Char) : (ofText text).lossyText = text := by
  simp [lossyText, ofText]

theorem splitParts_ne_nil (bytes : List UInt8) : splitParts bytes ≠ [] := by
  fun_cases splitParts bytes <;> simp_all

/-- Cutting at the separators loses nothing. -/
@[simp] theorem joinParts_splitParts (bytes : List UInt8) : joinParts (splitParts bytes) = bytes := by
  fun_induction splitParts bytes with
  | case1 => rfl
  | case2 bytes ih =>
    cases h : splitParts bytes with
    | nil => exact absurd h (splitParts_ne_nil bytes)
    | cons part parts => rw [h] at ih; simp [joinParts, ih]
  | case3 b bytes _ hNil ih => exact absurd hNil (splitParts_ne_nil bytes)
  | case4 b bytes _ part parts hParts ih =>
    rw [hParts] at ih
    cases parts with
    | nil => simpa [joinParts] using ih
    | cons p ps => simpa [joinParts] using ih

theorem cut_bytes (p : Path) : p.cut.1.bytes ++ p.cut.2 = p.bytes := by
  unfold cut
  split <;> simp_all [Lead.bytes]

end Path

end SnippetAudit
