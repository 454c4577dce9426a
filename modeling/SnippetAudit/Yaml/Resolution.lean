import SnippetAudit.Number.Numeral
import SnippetAudit.Text.Utf8
import SnippetAudit.Yaml.Fault
import SnippetAudit.Yaml.Value

/-!
# Resolution of scalars

The value that the text of a scalar stands for. A plain scalar without a tag is null, a
boolean, a whole number, a floating-point number or a string, whichever fits first. Quoted and
block scalars are strings. A tag of the core schema asks for its own kind of value.

Whole numbers have 64 bits. One that needs more but at most 128 makes the document faulty, a
longer one is read as a floating-point number.

Results:
* `ofScalar_quoted`: a quoted scalar without a tag is a string, whatever its text.
-/

namespace SnippetAudit.Yaml

open Text

namespace Plain

/-- The words for null. -/
def isNullWord (text : List Char) : Bool :=
  [['~'], "null".toList, "Null".toList, "NULL".toList].contains text

/-- The boolean that a word stands for. -/
def bool? (text : List Char) : Option Bool :=
  if ["true".toList, "True".toList, "TRUE".toList].contains text then some true
  else if ["false".toList, "False".toList, "FALSE".toList].contains text then some false
  else none

/-- A text without the sign at its start. -/
def unsigned : List Char → List Char
  | '+' :: rest => rest
  | '-' :: rest => rest
  | text => text

/-- Whether a text consists of digits with a leading zero that a number does not have. -/
def hasSpareZero (text : List Char) : Bool :=
  match unsigned text with
  | '0' :: c :: rest => (c :: rest).all Numeral.isDigit
  | _ => false

/-- A whole number without a sign: decimal digits, or digits of another radix behind their mark. -/
def magnitude? : List Char → Option Nat
  | '0' :: 'x' :: digits => Numeral.digitsValue? 16 digits
  | '0' :: 'o' :: digits => Numeral.digitsValue? 8 digits
  | '0' :: 'b' :: digits => Numeral.digitsValue? 2 digits
  | digits => Numeral.digitsValue? 10 digits

/-- The kinds of results of reading a whole number. -/
inductive Whole where
  /-- A number of 64 bits. -/
  | fits (i : Int)
  /-- A number of more than 64 and at most 128 bits. -/
  | wide
  /-- No number, or one that is longer still. -/
  | none
  deriving DecidableEq, Repr

/-- Reads a whole number. -/
def whole (text : List Char) : Whole :=
  if hasSpareZero text then .none
  else
    match magnitude? (unsigned text) with
    | some n =>
      if text.head? = some '-' then
        if n ≤ 1 <<< 63 then .fits (-n) else if n ≤ 1 <<< 127 then .wide else .none
      else if n < 1 <<< 64 then .fits n
      else if n < 1 <<< 128 then .wide
      else .none
    | none => .none

/-- Reads a floating-point number. -/
def float? (text : List Char) : Option Binary64 :=
  let infinities := [".inf".toList, ".Inf".toList, ".INF".toList]
  if [".nan".toList, ".NaN".toList, ".NAN".toList].contains text then some .nan
  else if infinities.contains text then some (.infinity false)
  else
    match text with
    | '+' :: rest =>
      if infinities.contains rest then some (.infinity false)
      else if rest.head?.any (fun c => c == '+' || c == '-') then none
      else (Numeral.read? rest).filter (·.isFinite)
    | '-' :: rest =>
      if infinities.contains rest then some (.infinity true)
      else (Numeral.read? text).filter (·.isFinite)
    | _ => (Numeral.read? text).filter (·.isFinite)

/-- The value of a plain scalar. -/
def value (text : List Char) : Except Fault Value :=
  if text.isEmpty || isNullWord text then .ok .null
  else
    match bool? text with
    | some b => .ok (.bool b)
    | none =>
      match whole text with
      | .fits i => .ok (.number (.whole i))
      | .wide => .error .wholeRange
      | .none =>
        match if hasSpareZero text then none else float? text with
        | some x => .ok (.number (.float x))
        | none => .ok (.string (String.ofList text))

end Plain

/-! ## Tags -/

/-- The kinds of values that tags of the core schema ask for. -/
inductive CoreTag where
  | null
  | bool
  | int
  | float
  deriving DecidableEq, Repr

/-- The core tag with these bytes. -/
def CoreTag.ofBytes? (tag : List UInt8) : Option CoreTag :=
  let named (name : String) : Bool := tag == Utf8.encode ("tag:yaml.org,2002:" ++ name).toList
  if named "null" then some .null
  else if named "bool" then some .bool
  else if named "int" then some .int
  else if named "float" then some .float
  else none

/-- The value that a core tag makes of a text. -/
def CoreTag.value? (tag : CoreTag) (text : List Char) : Option Value :=
  match tag with
  | .null => if Plain.isNullWord text then some .null else none
  | .bool => (Plain.bool? text).map .bool
  | .int =>
    match Plain.whole text with
    | .fits i => some (.number (.whole i))
    | _ => none
  | .float => (Plain.float? text).map fun x => .number (.float x)

/-- Whether a tag belongs to the document alone: it starts with `!`. -/
def isLocalTag (tag : List UInt8) : Bool := tag.head? == some 0x21

/-- The name of a local tag: what stands behind `!`, or `!` where nothing does. -/
def localTag? (tag : List UInt8) : Option String :=
  match tag with
  | 0x21 :: rest =>
    (Utf8.decode? (if rest.isEmpty then [0x21] else rest)).map String.ofList
  | _ => none

/-- The value of a scalar, without the local tag that may stand around it. -/
def Value.ofScalar (tag : Option (List UInt8)) (text : List Char) (plain : Bool) :
    Except Fault Value :=
  let asString := .ok (.string (String.ofList text))
  match tag with
  | some tag =>
    match CoreTag.ofBytes? tag with
    | some core =>
      match core.value? text with
      | some v => .ok v
      | none => .error .tagMismatch
    | none => if isLocalTag tag && plain then Plain.value text else asString
  | none => if plain then Plain.value text else asString

/-! ## Lemmas -/

theorem ofScalar_quoted (text : List Char) :
    Value.ofScalar none text false = .ok (.string (String.ofList text)) := rfl

end SnippetAudit.Yaml
