/-
MetadataRules/Yaml/Fault.lean

Why a text is not read as YAML, and where.

Some problems lie in the text itself, such as a key without its colon; others
come up when the text is well formed, such as a key that comes twice.  A message
names the problem, its place, and what was being read and where that began; a
place is left out where it is the start of the text.
-/
import MetadataRules.Yaml.Scalar

namespace MetadataRules

namespace Yaml

/-! ### Ways to a node -/

/-- A step from a collection to a node in it. -/
inductive Step where
  /-- The value of a scalar key. -/
  | key (text : String)
  /-- The value of a key that is a collection. -/
  | collectionKey
  | item (index : Nat)

/-- A way in words, where a key goes on behind it; none is the root. -/
def dotted : Option String → String
  | some way => way ++ "."
  | none => ""

/-- The way in words that goes one step on behind a way in words. -/
def Step.extend (way : Option String) : Step → String
  | .item index => way.getD "." ++ s!"[{index}]"
  | .key text => dotted way ++ text
  | .collectionKey => dotted way ++ "?"

/-- The way of some steps from the root, in words; none for no step. -/
def wayText? (steps : List Step) : Option String :=
  steps.foldl (fun way step => some (step.extend way)) none

/-! ### Problems -/

/-- What is wrong. -/
inductive Problem where
  | controlCharacter (offset : Nat)
  | noToken
  | noColon
  | misplacedItem
  | misplacedKey
  | misplacedValue
  | markerInQuotes
  | openQuotes
  | unknownEscape
  | escapeDigits
  | escapeCode
  | colonInWord
  | tabIndentation
  | noNode
  | noDash
  | noKey
  | noComma (closing : Char)
  | repeatedKey (key : Yaml) (steps : List Step)
  | wideInteger (i : Int) (steps : List Step)
  | tooDeep
  | severalDocuments

/-- A character of a key in a message. -/
def shownChar (c : Char) : List Char :=
  if c.toNat = 0 then ['\\', '0']
  else if c = '"' || c = '\\' || c = '\n' || c = '\r' || c = '\t' then escapeChar c
  else if isControl c then
    '\\' :: 'u' :: '\x7b' :: (Nat.toDigits 16 c.toNat ++ ['\x7d'])
  else [c]

/-- A repeated key in a message. -/
def shownKey : Yaml → String
  | .null => "with null key"
  | .boolean b => s!"with key \x60{b}\x60"
  | .integer i => s!"with key {String.ofList (intDigits i)}"
  | .float x => s!"with key {String.ofList (x.floatText floatStyle)}"
  | .string s => s!"with key {String.ofList (quoteWith shownChar s)}"
  | .sequence _ | .mapping _ | .tagged _ _ => "in YAML map"

/-- The way to a node before a message about it. -/
def located (steps : List Step) (text : String) : String :=
  match wayText? steps with
  | some way => s!"{way}: {text}"
  | none => text

/-- A problem in words. -/
def Problem.text : Problem → String
  | controlCharacter offset =>
    "control characters are not allowed" ++ if offset = 0 then "" else s!" at position {offset}"
  | noToken => "found character that cannot start any token"
  | noColon => "could not find expected ':'"
  | misplacedItem => "block sequence entries are not allowed in this context"
  | misplacedKey => "mapping keys are not allowed in this context"
  | misplacedValue => "mapping values are not allowed in this context"
  | markerInQuotes => "found unexpected document indicator"
  | openQuotes => "found unexpected end of stream"
  | unknownEscape => "found unknown escape character"
  | escapeDigits => "did not find expected hexdecimal number"
  | escapeCode => "found invalid Unicode character escape code"
  | colonInWord => "found unexpected ':'"
  | tabIndentation => "found a tab character that violates indentation"
  | noNode => "did not find expected node content"
  | noDash => "did not find expected '-' indicator"
  | noKey => "did not find expected key"
  | noComma closing => s!"did not find expected ',' or '{closing}'"
  | repeatedKey key steps => located steps s!"duplicate entry {shownKey key}"
  | wideInteger i steps =>
    let kind := if i < 0 then "i128" else "u128"
    let digits := String.ofList (intDigits i)
    located steps
      s!"invalid type: integer \x60{digits}\x60 as {kind}, expected any YAML value"
  | tooDeep => "recursion limit exceeded"
  | severalDocuments =>
    "deserializing from YAML containing more than one document is not supported"

/-! ### Faults -/

/-- What was being read. -/
inductive Context where
  | token
  | simpleKey
  | quoted
  | escape
  | plain
  | blockNode
  | flowNode
  | blockSequence
  | blockMapping
  | flowSequence
  | flowMapping

/-- What was being read, in words. -/
def Context.text : Context → String
  | token => "while scanning for the next token"
  | simpleKey => "while scanning a simple key"
  | quoted => "while scanning a quoted scalar"
  | escape => "while parsing a quoted scalar"
  | plain => "while scanning a plain scalar"
  | blockNode => "while parsing a block node"
  | flowNode => "while parsing a flow node"
  | blockSequence => "while parsing a block collection"
  | blockMapping => "while parsing a block mapping"
  | flowSequence => "while parsing a flow sequence"
  | flowMapping => "while parsing a flow mapping"

/-- A problem, its place, and what was being read from which place on. -/
structure Fault where
  problem : Problem
  place : Mark
  context : Option (Context × Mark)

namespace Fault

/-- A problem of a whole text. -/
def ofText (problem : Problem) : Fault := ⟨problem, .start, none⟩

/-- A place behind a message; the start of a text goes without saying. -/
def placeText (m : Mark) : String :=
  if m.line = 0 && m.column = 0 then "" else s!" at {m.text}"

/-- A fault in words. -/
def message (f : Fault) : String :=
  let context := match f.context with
    | none => ""
    | some (context, began) =>
      let same := began.line = f.place.line && began.column = f.place.column
      s!", {context.text}" ++ if same then "" else placeText began
  f.problem.text ++ placeText f.place ++ context

end Fault

end Yaml

end MetadataRules
