import SnippetAudit.Snippet.Schema
import SnippetAudit.Source.Block

/-!
# Outcomes

What the check of one block found, or why one path could not be looked at. An outcome
passed when it has no finding. Reports list outcomes by path, and those of one path by
line, what concerns the whole path first.

Results:
* `passed_forBlock`, `passed_fileFailure`: a block passes until something is found, a failed path does
  not pass.
* `filename_ofBlock`, `location_ofBlock`, `rawText_ofBlock`: an outcome of a block keeps the place and
  the document of the block.
* `passed_ofBlock_iff`: a block passes iff metadata is read from its document.
* `sort_perm`: sorting rearranges the outcomes.
-/

namespace SnippetAudit

/-- One thing that is wrong (`OutcomeError`). -/
inductive Finding where
  /-- A violation of the schema: where it is, and what was expected. -/
  | schema (path message : String)
  /-- A text that cannot be read as a document. -/
  | parse (detail : String)
  /-- A path that cannot be looked at. -/
  | io (detail : String)
  deriving DecidableEq, Repr

namespace Finding

/-- The text of a finding. -/
def text : Finding → String
  | .schema path message => "schema error: " ++ path ++ ": " ++ message
  | .parse detail => "parse error: " ++ detail
  | .io detail => "io error: " ++ detail

/-- What is found about a block that is refused (`OutcomeError::from`). -/
def ofRejection [Yaml.Wording] : Rejection → Finding
  | .malformed text => .parse ("invalid YAML: " ++ Yaml.Wording.document text)
  | .violation v => .schema v.path v.message

end Finding

/-- The result of checking one block or one path (`Outcome`). -/
structure Outcome where
  filename : Path
  /-- The line of the block's marker; none where the whole path is meant. -/
  location : Option Location
  rawText : List Char
  findings : List Finding
  deriving DecidableEq, Repr

namespace Outcome

/-- The outcome of a block about which nothing is found yet (`Outcome::for_block`). -/
def forBlock (b : Block) : Outcome := ⟨b.filename, some b.location, b.rawText, []⟩

/-- The outcome of a path with one finding (`Outcome::file_failure`). -/
def fileFailure (filename : Path) (finding : Finding) : Outcome := ⟨filename, none, [], [finding]⟩

/-- The outcome with one more finding (`Outcome::push_error`). -/
def push (o : Outcome) (finding : Finding) : Outcome := { o with findings := o.findings ++ [finding] }

/-- Whether nothing was found (`Outcome::passed`). -/
def passed (o : Outcome) : Bool := o.findings.isEmpty

/-- The line of the outcome (`Outcome::line`). -/
def line? (o : Outcome) : Option Nat := o.location.map (·.line)

/-- The outcome with what validating a text finds. -/
def pushValidation [Yaml.Wording] (o : Outcome) (text : List Char) : Outcome :=
  match Metadata.ofText text with
  | .ok _ => o
  | .error r => o.push (.ofRejection r)

/-- The outcome of checking a block. -/
def ofBlock [Yaml.Wording] (b : Block) : Outcome := (forBlock b).pushValidation b.rawText

/-- The outcomes of a source file, one for each of its blocks (`check_source`). -/
def ofSource [Yaml.Wording] (config : Config) (filename : Path) (text : List Char) : List Outcome :=
  (Block.ofText config filename text).map ofBlock

/-! ## Order -/

/-- The order of locations within a file. What concerns the whole file comes first. -/
def compareLocation : Option Location → Option Location → Ordering
  | none, none => .eq
  | none, some _ => .lt
  | some _, none => .gt
  | some a, some b => a.compare b

/-- The order of outcomes in a report (`Outcome::report_order`). -/
def compare (a b : Outcome) : Ordering :=
  (a.filename.compare b.filename).then (compareLocation a.location b.location)

/-- Whether one outcome may stand before another in a report. -/
def precedes (a b : Outcome) : Bool := a.compare b != .gt

/-- The outcomes in the order of a report (`sort_outcomes`); those that are equal in it keep their
    order. -/
def sort (outcomes : List Outcome) : List Outcome := outcomes.mergeSort precedes

/-! ## Lemmas -/

@[simp] theorem passed_forBlock (b : Block) : (forBlock b).passed = true := rfl

@[simp] theorem passed_fileFailure (filename : Path) (finding : Finding) :
    (fileFailure filename finding).passed = false := rfl

@[simp] theorem passed_push (o : Outcome) (finding : Finding) : (o.push finding).passed = false := by
  simp [passed, push]

@[simp] theorem filename_ofBlock [Yaml.Wording] (b : Block) : (ofBlock b).filename = b.filename := by
  unfold ofBlock pushValidation
  split <;> rfl

@[simp] theorem location_ofBlock [Yaml.Wording] (b : Block) :
    (ofBlock b).location = some b.location := by
  unfold ofBlock pushValidation
  split <;> rfl

@[simp] theorem rawText_ofBlock [Yaml.Wording] (b : Block) : (ofBlock b).rawText = b.rawText := by
  unfold ofBlock pushValidation
  split <;> rfl

/-- A block passes iff metadata is read from its document. -/
theorem passed_ofBlock_iff [Yaml.Wording] {b : Block} :
    (ofBlock b).passed = true ↔ ∃ m, Metadata.ofText b.rawText = .ok m := by
  unfold ofBlock pushValidation
  cases hRead : Metadata.ofText b.rawText with
  | ok m => simp [passed_forBlock]
  | error r => simp [passed_push]

theorem sort_perm (outcomes : List Outcome) : (sort outcomes).Perm outcomes :=
  List.mergeSort_perm outcomes precedes

end Outcome

end SnippetAudit
