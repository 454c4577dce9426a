import SnippetAudit.Config
import SnippetAudit.Yaml.Document

/-!
# Reading a configuration

A configuration file is a YAML mapping from names of settings to scalars, whose text is taken as
it is written. The entries are read in order, and the first bad one is reported: a name that no
setting has, a name given twice, or a key or value that is no scalar. Only then is the rest of the
file looked at, and after that whether a setting is blank.

Results:
* `assign_nil`, `assign_unknown`: entries are assigned one by one; an unknown name ends reading.
* `ofText_blank`: a blank file leaves every setting at its default.
-/

namespace SnippetAudit.Config

open Text

/-- Why a configuration file is refused (`ConfigError`). -/
inductive Fault where
  /-- A name that no setting has, and where it stands. -/
  | unknownField (name : String) (mark : Yaml.Mark)
  /-- A setting that is given twice, and where the mapping starts. -/
  | repeatedField (field : Field) (mark : Yaml.Mark)
  /-- A file that is no mapping from settings to scalars, by its text. -/
  | malformed (file : List Char)
  /-- A setting that is blank. -/
  | blank (field : Field)
  deriving DecidableEq, Repr

/-! ## Wording -/

/-- A name between backquotes. -/
def quoted (name : String) : String := "\x60" ++ name ++ "\x60"

/-- Where a fault is, if it is not at the very start of the file. -/
def placeText (mark : Yaml.Mark) : String :=
  if mark.line = 0 ∧ mark.column = 0 then ""
  else " at line " ++ toString (mark.line + 1) ++ " column " ++ toString (mark.column + 1)

/-- The names of all settings. -/
def fieldList : String := ", ".intercalate (Field.all.map fun field => quoted field.name)

namespace Fault

/-- What is wrong with the text of a file; a blank setting is not wrong as text. -/
def textFault? [Yaml.Wording] : Fault → Option String
  | .unknownField name mark =>
    some ("unknown field " ++ quoted name ++ ", expected one of " ++ fieldList ++ placeText mark)
  | .repeatedField field mark => some ("duplicate field " ++ quoted field.name ++ placeText mark)
  | .malformed file => some (Yaml.Wording.settings file)
  | .blank _ => none

/-- The wording of a fault, given the name of the file (`ConfigError`). -/
def message [Yaml.Wording] (f : Fault) (origin : String) : String :=
  match f with
  | .blank field => "invalid config value for " ++ quoted field.name ++ ": " ++ blankReason
  | _ => "invalid config file '" ++ origin ++ "': " ++ f.textFault?.getD ""

end Fault

/-! ## Entries -/

/-- An entry of a configuration file: its key, where the key stands, and the text of its value, if the
    value is a scalar. -/
structure Entry where
  key : String
  mark : Yaml.Mark
  value : Option String
  deriving DecidableEq, Repr

/-- The text of a part that is a scalar or stands for one, and the mark of that scalar. -/
def scalar? (parts : List Yaml.Part) (part : Yaml.Part) : Option (String × Yaml.Mark) :=
  match part.kind with
  | .scalar _ text _ => some (String.ofList text, part.mark)
  | .link place =>
    match parts[place]? with
    | some ⟨.scalar _ text _, mark⟩ => some (String.ofList text, mark)
    | _ => none
  | _ => none

/-- The entries of a mapping behind its start, up to its end or to what is no scalar. The flag says
    that they go on to the end. -/
def entries (parts : List Yaml.Part) : List Yaml.Part → List Entry × Bool
  | [] => ([], false)
  | [key] =>
    match scalar? parts key with
    | some (name, mark) => ([⟨name, mark, none⟩], false)
    | none => ([], key.kind == .mappingEnd)
  | key :: value :: rest =>
    match scalar? parts key with
    | some (name, mark) =>
      match scalar? parts value with
      | some (text, _) =>
        let (more, complete) := entries parts rest
        (⟨name, mark, some text⟩ :: more, complete)
      | none => ([⟨name, mark, none⟩], false)
    | none => ([], key.kind == .mappingEnd)

/-- Assigns the values of entries in order. The settings in `seen` have been given. -/
def assign (file : List Char) (start : Yaml.Mark) :
    Config → List Field → List Entry → Except Fault Config
  | c, _, [] => .ok c
  | c, seen, entry :: rest =>
    match Field.ofName? entry.key with
    | none => .error (.unknownField entry.key entry.mark)
    | some field =>
      if seen.contains field then .error (.repeatedField field start)
      else
        match entry.value with
        | some value => assign file start (c.set field value) (field :: seen) rest
        | none => .error (.malformed file)

/-- Refuses a file with a fault. -/
def refuse (file : List Char) : Option Yaml.Fault → Except Fault Unit
  | some _ => .error (.malformed file)
  | none => .ok ()

/-- The configuration that the entries of a mapping stand for. Behind them the file may be at fault. -/
def ofEntries (file : List Char) (start : Yaml.Mark) (entries : List Entry)
    (fault : Option Yaml.Fault) : Except Fault Config := do
  let c ← assign file start default [] entries
  refuse file fault
  c.validate.mapError .blank

/-! ## Documents -/

/-- The configuration that the document of a file stands for. A document without a root, or with an
    empty one, leaves every setting at its default. -/
def ofDocument (file : List Char) (d : Yaml.Document) : Except Fault Config :=
  match d.parts with
  | [] => ofEntries file ⟨0, 0, 0⟩ [] d.fault
  | ⟨.scalar _ [] true, start⟩ :: _ => ofEntries file start [] d.fault
  | ⟨.mappingStart _, start⟩ :: rest =>
    let (entries, complete) := entries d.parts rest
    ofEntries file start entries (if complete then d.fault else some .unfinished)
  | _ => .error (.malformed file)

/-- The configuration that a text stands for (`CheckerConfig::from_yaml_str`). -/
def ofText (text : List Char) : Except Fault Config :=
  if isAllBlank text then .ok default else ofDocument text (.ofText text)

/-! ## Lemmas -/

@[simp] theorem assign_nil (file : List Char) (start : Yaml.Mark) (c : Config) (seen : List Field) :
    assign file start c seen [] = .ok c := rfl

theorem assign_unknown {file : List Char} {start : Yaml.Mark} {c : Config} {seen : List Field}
    {entry : Entry} {rest : List Entry} (h : Field.ofName? entry.key = none) :
    assign file start c seen (entry :: rest) = .error (.unknownField entry.key entry.mark) := by
  rw [assign, h]

theorem ofText_blank {text : List Char} (h : isAllBlank text = true) : ofText text = .ok default := by
  rw [ofText, if_pos h]

end SnippetAudit.Config
