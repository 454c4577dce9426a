import SnippetAudit.Number.Shortest

/-!
# YAML values

The tree that a YAML document stands for: null, booleans, whole and floating-point
numbers, strings, sequences, mappings with keys of any kind, and values under a
local tag.

The readers `asString?`, `asBool?`, … look through tags, while `get?` finds an entry
only under an untagged string key.

Results:
* `asString?_untag` and its siblings: the readers see a value and its untagged form alike.
* `get?_cons_of_ne`, `get?_cons_self`: an entry under another key does not matter.
-/

namespace SnippetAudit.Yaml

/-- A number of a document: whole, or floating-point. -/
inductive Number where
  | whole (i : Int)
  | float (x : Binary64)
  deriving DecidableEq, Repr

/-- The number as a floating-point number; a whole number goes to the nearest one. -/
def Number.toBinary64 : Number → Binary64
  | .whole i => .ofInt i
  | .float x => x

/-- The text of a number: whole numbers in decimal, others with the fewest digits that read back. -/
def Number.text : Number → List Char
  | .whole i => (toString i).toList
  | .float x => x.text

/-- Equality of numbers as keys: the kinds are told apart, `0.0` and `-0.0` are not. -/
def Number.same : Number → Number → Bool
  | .whole i, .whole j => i == j
  | .float x, .float y => x.sameNumber y
  | _, _ => false

/-- A YAML value. -/
inductive Value where
  | null
  | bool (b : Bool)
  | number (n : Number)
  | string (s : String)
  | sequence (items : List Value)
  | mapping (entries : List (Value × Value))
  | tagged (tag : String) (value : Value)
  deriving Repr, Inhabited

/-- The entries of a mapping, in document order. -/
abbrev Entries := List (Value × Value)

/-- The value of the first entry with the untagged string key `key`. -/
def Entries.get? : Entries → String → Option Value
  | [], _ => none
  | (.string k, v) :: rest, key => if k = key then some v else Entries.get? rest key
  | _ :: rest, key => Entries.get? rest key

namespace Value

/-! ## Readers -/

/-- The value without the tags around it (`untag`). -/
def untag : Value → Value
  | .tagged _ v => v.untag
  | v => v

/-- Whether a value is null, looking through tags. -/
def isNull (v : Value) : Bool :=
  match v.untag with
  | .null => true
  | _ => false

/-- The text of a string, looking through tags. -/
def asString? (v : Value) : Option String :=
  match v.untag with
  | .string s => some s
  | _ => none

/-- A boolean, looking through tags. -/
def asBool? (v : Value) : Option Bool :=
  match v.untag with
  | .bool b => some b
  | _ => none

/-- A number as a floating-point number, looking through tags. -/
def asNumber? (v : Value) : Option Binary64 :=
  match v.untag with
  | .number n => some n.toBinary64
  | _ => none

/-- The items of a sequence, looking through tags. -/
def asSequence? (v : Value) : Option (List Value) :=
  match v.untag with
  | .sequence items => some items
  | _ => none

/-- The entries of a mapping, looking through tags. -/
def asMapping? (v : Value) : Option Entries :=
  match v.untag with
  | .mapping entries => some entries
  | _ => none

/-- Whether a value counts as set (`is_truthy`): null, `false`, zero, what is not a number, and the
    empty string do not; a sequence and a mapping always do. -/
def isTruthy (v : Value) : Bool :=
  match v.untag with
  | .null => false
  | .bool b => b
  | .number n => !n.toBinary64.isZero && !n.toBinary64.isNaN
  | .string s => s ≠ ""
  | _ => true

/-- The text of a scalar key, looking through tags (`scalar_key`); other values have none. -/
def keyText? (v : Value) : Option String :=
  match v.untag with
  | .string s => some s
  | .number n => some (String.ofList n.text)
  | .bool b => some (if b then "true" else "false")
  | _ => none

end Value

/-- The value of an entry that exists and is not null (`present`). -/
def Entries.present? (entries : Entries) (key : String) : Option Value :=
  (entries.get? key).filter (!·.isNull)

/-! ## Equality of keys -/

/-- The name of a tag, without the `!` that may stand before it. -/
def tagName (tag : String) : String :=
  match tag.toList with
  | '!' :: c :: rest => String.ofList (c :: rest)
  | _ => tag

mutual

/-- Equality of values as keys: by kind and content. Tags count, mappings have no order. -/
def Value.same : Value → Value → Bool
  | .null, .null => true
  | .bool a, .bool b => a == b
  | .number m, .number n => m.same n
  | .string s, .string t => s == t
  | .sequence xs, .sequence ys => sameItems xs ys
  | .mapping xs, .mapping ys => xs.length == ys.length && sameEntries xs ys
  | .tagged t v, .tagged u w => tagName t == tagName u && v.same w
  | _, _ => false

/-- Equality item by item. -/
def sameItems : List Value → List Value → Bool
  | [], [] => true
  | x :: xs, y :: ys => x.same y && sameItems xs ys
  | _, _ => false

/-- Whether each entry of the first list has an equal one in the second. -/
def sameEntries : List (Value × Value) → List (Value × Value) → Bool
  | [], _ => true
  | e :: es, others => hasEntry e others && sameEntries es others

/-- Whether a list has an entry with an equal key and an equal value. -/
def hasEntry : Value × Value → List (Value × Value) → Bool
  | _, [] => false
  | (k, v), (k', v') :: others => (k.same k' && v.same v') || hasEntry (k, v) others

end

/-- Adds an entry at the end, or gives the entry with an equal key its new value. -/
def Entries.insert (key value : Value) : Entries → Entries
  | [] => [(key, value)]
  | (k, v) :: rest => if k.same key then (k, value) :: rest else (k, v) :: Entries.insert key value rest

/-! ## Lemmas -/

namespace Value

@[simp] theorem untag_tagged (tag : String) (v : Value) : (tagged tag v).untag = v.untag := by
  rw [untag]

@[simp] theorem untag_untag : ∀ v : Value, v.untag.untag = v.untag
  | .tagged _ v => by rw [untag_tagged, untag_untag v]
  | .null | .bool _ | .number _ | .string _ | .sequence _ | .mapping _ => rfl

@[simp] theorem asString?_untag (v : Value) : v.untag.asString? = v.asString? := by
  simp [asString?]

@[simp] theorem asBool?_untag (v : Value) : v.untag.asBool? = v.asBool? := by
  simp [asBool?]

@[simp] theorem asNumber?_untag (v : Value) : v.untag.asNumber? = v.asNumber? := by
  simp [asNumber?]

@[simp] theorem asSequence?_untag (v : Value) : v.untag.asSequence? = v.asSequence? := by
  simp [asSequence?]

@[simp] theorem asMapping?_untag (v : Value) : v.untag.asMapping? = v.asMapping? := by
  simp [asMapping?]

@[simp] theorem isTruthy_untag (v : Value) : v.untag.isTruthy = v.isTruthy := by
  simp [isTruthy]

@[simp] theorem keyText?_untag (v : Value) : v.untag.keyText? = v.keyText? := by
  simp [keyText?]

end Value

@[simp] theorem Entries.get?_cons_self (key : String) (v : Value) (rest : Entries) :
    Entries.get? ((.string key, v) :: rest) key = some v := by
  simp [Entries.get?]

theorem Entries.get?_cons_of_ne {k : Value} {key : String} (h : k ≠ .string key) (v : Value)
    (rest : Entries) : Entries.get? ((k, v) :: rest) key = rest.get? key := by
  cases k with
  | string s =>
    have hs : s ≠ key := fun h' => h (by rw [h'])
    simp [Entries.get?, hs]
  | null | bool | number | sequence | mapping | tagged => rfl

end SnippetAudit.Yaml
