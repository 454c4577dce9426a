/-!
# Faults of a YAML document

Why a text is not a YAML document that can be read, and what is said of such a text.

A message tells the cause in the words of the YAML reader: what is wrong, in which line, and below
which keys of the document, which stand in the message as they are. These words are not modelled.
They are a parameter, a function of the text, and may hold anything that a text may hold.
-/

namespace SnippetAudit.Yaml

/-- Why a document cannot be read. -/
inductive Fault where
  /-- A character that no document may hold. -/
  | character
  /-- A character that starts no token. -/
  | indicator
  /-- A tab where the indentation has to be made of spaces. -/
  | tab
  /-- A directive that is unknown, repeated or not well formed. -/
  | directive
  /-- An anchor or alias without a name, or run into other text. -/
  | anchor
  /-- A tag that is not well formed. -/
  | tag
  /-- A tag handle that no directive declares. -/
  | tagHandle
  /-- An escape that stands for no character. -/
  | escape
  /-- A quoted scalar that is not closed. -/
  | unclosedQuote
  /-- A block scalar with a header that is not well formed. -/
  | blockHeader
  /-- A flow scalar with a `:` that is followed by a flow indicator. -/
  | colon
  /-- A line that has to be a key and has no `:`. -/
  | keyWithoutColon
  /-- An entry, key or value where none may begin. -/
  | context
  /-- A token that the structure of the document does not allow. -/
  | unexpected
  /-- A document that ends too early. -/
  | unfinished
  /-- More than one document in a text. -/
  | manyDocuments
  /-- An alias of an unknown anchor. -/
  | unknownAnchor
  /-- Aliases that are followed too often. -/
  | manyAliases
  /-- Collections that are nested too deeply. -/
  | depth
  /-- A key that a mapping already has. -/
  | duplicateKey
  /-- A scalar that is not what its tag asks for. -/
  | tagMismatch
  /-- A whole number of more than 64 and at most 128 bits. -/
  | wholeRange
  deriving DecidableEq, Repr

/-- What the YAML reader says of a text that it does not accept. -/
class Wording where
  /-- Of a text that is no document. -/
  document : List Char → String
  /-- Of a text that is no mapping from settings to scalars. -/
  settings : List Char → String

end SnippetAudit.Yaml
