import SnippetAudit.Text.Blank

/-!
# Configuration

What counts as a comment, what opens a metadata block and which files are read. Every
setting has a default. A configuration is valid when no setting is blank.

Results:
* `validate_eq_ok_iff`: a configuration is valid when none of its settings is blank.
* `acceptsName_iff`: a file name is accepted when it ends in the suffix and is longer.
-/

namespace SnippetAudit

open Text

/-- The settings of a check (`CheckerConfig`). -/
structure Config where
  /-- A line is a comment when it starts with this sign. -/
  commentPrefix : String
  /-- What the text of a comment starts with to open a metadata block. -/
  marker : String
  /-- What the name of a file ends with to be read. -/
  sourceSuffix : String
  deriving DecidableEq, Repr

namespace Config

/-- The settings used where nothing is configured (`CheckerConfig::default`). -/
def default : Config := ⟨"#", "METADATA: library-snippet", ".rego"⟩

/-- The settings by name. -/
inductive Field where
  | commentPrefix
  | marker
  | sourceSuffix
  deriving DecidableEq, Repr

/-- Every setting, in the order in which they are checked and listed. -/
def Field.all : List Field := [.commentPrefix, .marker, .sourceSuffix]

/-- The name of a setting in a configuration file. -/
def Field.name : Field → String
  | .commentPrefix => "comment_prefix"
  | .marker => "marker"
  | .sourceSuffix => "source_suffix"

/-- The setting with a name. -/
def Field.ofName? (name : String) : Option Field := Field.all.find? (·.name == name)

/-- The value of a setting. -/
def get (c : Config) : Field → String
  | .commentPrefix => c.commentPrefix
  | .marker => c.marker
  | .sourceSuffix => c.sourceSuffix

/-- The configuration with one setting changed. -/
def set (c : Config) (field : Field) (value : String) : Config :=
  match field with
  | .commentPrefix => { c with commentPrefix := value }
  | .marker => { c with marker := value }
  | .sourceSuffix => { c with sourceSuffix := value }

/-- Whether a setting holds blanks only. -/
def isBlankAt (c : Config) (field : Field) : Bool := isAllBlank (c.get field).toList

/-- The first blank setting. -/
def blankField? (c : Config) : Option Field := Field.all.find? c.isBlankAt

/-- Why a blank setting is refused. -/
def blankReason : String := "must not be empty"

/-- The configuration, or its first blank setting (`CheckerConfig::validate`). -/
def validate (c : Config) : Except Field Config :=
  match c.blankField? with
  | some field => .error field
  | none => .ok c

/-- Whether a file name carries the source suffix behind something else
    (`CheckerConfig::is_source_file_name`). -/
def acceptsName (c : Config) (name : List Char) : Bool :=
  c.sourceSuffix.toList.length < name.length && c.sourceSuffix.toList.isSuffixOf name

/-! ## Lemmas -/

theorem validate_eq_ok_iff {c c' : Config} :
    c.validate = .ok c' ↔ c' = c ∧ ∀ field, c.isBlankAt field = false := by
  have hAll : c.blankField? = none ↔ ∀ field, c.isBlankAt field = false := by
    rw [blankField?, List.find?_eq_none]
    constructor
    · intro h field
      have := h field (by cases field <;> decide)
      simpa using this
    · intro h field _
      simp [h field]
  rw [validate]
  cases h : c.blankField? with
  | none => rw [← hAll]; simpa [h] using eq_comm
  | some field => rw [← hAll]; simp [h]

theorem acceptsName_iff {c : Config} {name : List Char} :
    c.acceptsName name = true ↔ ∃ stem, stem ≠ [] ∧ name = stem ++ c.sourceSuffix.toList := by
  simp only [acceptsName, Bool.and_eq_true, decide_eq_true_eq, List.isSuffixOf_iff_suffix]
  constructor
  · rintro ⟨hLength, stem, hName⟩
    refine ⟨stem, ?_, hName.symm⟩
    rintro rfl
    rw [← hName] at hLength
    simp at hLength
  · rintro ⟨stem, hStem, rfl⟩
    refine ⟨?_, stem, rfl⟩
    have : 0 < stem.length := List.length_pos_iff.2 hStem
    simp; omega

end Config

end SnippetAudit
