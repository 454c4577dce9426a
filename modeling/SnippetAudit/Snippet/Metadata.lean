import SnippetAudit.Number.Binary64

/-!
# Snippet metadata

The typed form of a metadata document that keeps the snippet schema. Decisions and
parameters are closed families, one constructor for each `type` tag, and every
constructor carries just the fields its tag allows.

Results:
* `ValueType.ofTag?_eq_some_iff`: a tag is read as the value type that it is written for.
-/

namespace SnippetAudit

/-- One switch of a toggle decision (`ToggleSpec`). -/
structure Toggle where
  key : String
  value : Bool
  deriving DecidableEq, Repr

/-- One entry of `schema.decision` (`DecisionEntry`). -/
inductive Decision where
  | toggle (label : String) (toggles : List Toggle)
  | rego (key value : String)
  | string (key value : String)
  deriving DecidableEq, Repr

/-- The tags of decisions, in the order in which messages list them (`DecisionEntry::TAGS`). -/
def Decision.tags : List String := ["toggle", "rego", "string"]

/-- What a snippet is bound to (`PolicyBinding`): a rule body. -/
structure Policy where
  ruleValue : String
  deriving DecidableEq, Repr

/-- The kinds of source that a query of choices may read from (`QuerySource`). -/
inductive QuerySource where
  | datasource
  | library
  | package
  deriving DecidableEq, Repr

/-- The key that names a kind of source. -/
def QuerySource.key : QuerySource → String
  | .datasource => "datasource"
  | .library => "library"
  | .package => "package"

/-- Every kind of source, in the order in which they are looked for (`QuerySource::KEYS`). -/
def QuerySource.all : List QuerySource := [.datasource, .library, .package]

/-- Where the allowed values of a string parameter come from (`ItemsSource`). -/
inductive Items where
  | list (choices : List String)
  | query (text : String) (source : QuerySource) (name : String)
  deriving DecidableEq, Repr

/-- The type of the values of an object parameter (`ValueType`). -/
inductive ValueType where
  | string
  | setOfStrings
  | setOfNumbers
  deriving DecidableEq, Repr

/-- The tag of a value type (`ValueType::as_str`). -/
def ValueType.tag : ValueType → String
  | .string => "string"
  | .setOfStrings => "set_of_strings"
  | .setOfNumbers => "set_of_numbers"

/-- Every value type, in the order in which messages list them (`ValueType::ALL`). -/
def ValueType.all : List ValueType := [.string, .setOfStrings, .setOfNumbers]

/-- The value type of a tag (`ValueType::from_tag`). -/
def ValueType.ofTag? (tag : String) : Option ValueType :=
  ValueType.all.find? (·.tag == tag)

/-- One value in the default of an object parameter (`ObjectDefaultValue`). -/
inductive DefaultValue where
  | string (s : String)
  | strings (items : List String)
  | numbers (items : List Binary64)
  deriving DecidableEq, Repr

/-- The default of an object parameter: at most one value for each key, by ascending keys. -/
abbrev ObjectDefault := List (String × DefaultValue)

/-- Puts a value under a key, in its place among the keys; a value that stood there is replaced. -/
def ObjectDefault.insert (key : String) (value : DefaultValue) : ObjectDefault → ObjectDefault
  | [] => [(key, value)]
  | (k, v) :: rest =>
    if key = k then (key, value) :: rest
    else if key < k then (key, value) :: (k, v) :: rest
    else (k, v) :: ObjectDefault.insert key value rest

/-- The kinds of parameter, without what they carry. -/
inductive ParameterType where
  | string
  | setOfStrings
  | number
  | setOfNumbers
  | object
  deriving DecidableEq, Repr

/-- The tag of a kind of parameter. -/
def ParameterType.tag : ParameterType → String
  | .string => "string"
  | .setOfStrings => "set_of_strings"
  | .number => "number"
  | .setOfNumbers => "set_of_numbers"
  | .object => "object"

/-- Every kind of parameter, in the order in which messages list them (`Parameter::TAGS`). -/
def ParameterType.all : List ParameterType := [.string, .setOfStrings, .number, .setOfNumbers, .object]

/-- The kind of parameter of a tag. -/
def ParameterType.ofTag? (tag : String) : Option ParameterType :=
  ParameterType.all.find? (·.tag == tag)

/-- What a parameter carries beside the fields of every parameter. -/
inductive ParameterKind where
  | string (default : Option String) (items : Option Items)
  | setOfStrings (default : Option (List String)) (items : Option Items)
  | number (default : Option Binary64)
  | setOfNumbers (default : Option (List Binary64))
  | object (default : Option ObjectDefault) (keyPlaceholder : Option String)
      (valueType : ValueType) (valuePlaceholder : Option String)
  deriving DecidableEq, Repr

/-- The kind of what a parameter carries. -/
def ParameterKind.type : ParameterKind → ParameterType
  | .string .. => .string
  | .setOfStrings .. => .setOfStrings
  | .number .. => .number
  | .setOfNumbers .. => .setOfNumbers
  | .object .. => .object

/-- One entry of `schema.parameters` (`Parameter`). -/
structure Parameter where
  name : String
  label : Option String
  required : Option Bool
  placeholder : Option String
  kind : ParameterKind
  deriving DecidableEq, Repr

/-- The metadata of one snippet (`SnippetMetadata`). -/
structure Metadata where
  title : String
  description : String
  decision : Option (List Decision)
  policy : Option Policy
  parameters : Option (List Parameter)
  deriving DecidableEq, Repr

/-! ## Lemmas -/

theorem ValueType.tag_injective {t u : ValueType} (h : t.tag = u.tag) : t = u := by
  cases t <;> cases u <;> simp_all [ValueType.tag]

theorem ValueType.ofTag?_eq_some_iff {tag : String} {t : ValueType} :
    ValueType.ofTag? tag = some t ↔ tag = t.tag := by
  constructor
  · intro h
    exact (eq_of_beq (List.find?_some (p := fun u : ValueType => u.tag == tag) h)).symm
  · rintro rfl
    cases t <;> rfl

theorem ParameterType.ofTag?_eq_some_iff {tag : String} {t : ParameterType} :
    ParameterType.ofTag? tag = some t ↔ tag = t.tag := by
  constructor
  · intro h
    exact (eq_of_beq (List.find?_some (p := fun u : ParameterType => u.tag == tag) h)).symm
  · rintro rfl
    cases t <;> rfl

theorem ParameterType.tag_injective {t u : ParameterType} (h : t.tag = u.tag) : t = u :=
  Option.some.inj ((ofTag?_eq_some_iff.2 rfl).symm.trans (ofTag?_eq_some_iff.2 h))

end SnippetAudit
