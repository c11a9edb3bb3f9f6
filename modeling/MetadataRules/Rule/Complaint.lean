/-
MetadataRules/Rule/Complaint.lean

What the reader of a rule has to say about a text that is none.

Most complaints name what should have come next (`Expectation`) and what came
instead.  The others point at a word in the wrong place and show a form that
would be right.  A complaint is data; `Complaint.message` words it.
-/
import MetadataRules.Action
import MetadataRules.Token.Lexer

namespace MetadataRules

/-! ### Sample texts -/

/-- The verbs that edit fields. -/
inductive FieldVerb where
  | set
  | delete
  | rename
  | increment
  | decrement
deriving DecidableEq

namespace FieldVerb

def ofKeyword? : Keyword → Option FieldVerb
  | .set => some set
  | .delete => some delete
  | .rename => some rename
  | .increment => some increment
  | .decrement => some decrement
  | _ => none

/-- An action with the verb. -/
def sample : FieldVerb → String
  | set => "SET status \"published\", reviewed true"
  | delete => "DELETE draft, temp"
  | rename => "RENAME author TO creator"
  | increment => "INCREMENT views 1"
  | decrement => "DECREMENT credits 5"

end FieldVerb

/-- The verbs that stand behind `FOR` and a path only. -/
def Keyword.isCollectionVerb : Keyword → Bool
  | append | prepend | insert | removeAll | remove | sort | move | deduplicate | merge
  | mergeOverwrite => true
  | _ => false

/-- An action with a collection verb. -/
def Keyword.collectionSample : Keyword → String
  | prepend => "FOR tags PREPEND \"urgent\""
  | insert => "FOR tags INSERT \"urgent\" AT 0"
  | removeAll => "FOR tags REMOVE_ALL [\"draft\", \"wip\"]"
  | remove => "FOR tasks WHERE done = true REMOVE"
  | sort => "FOR tasks SORT BY priority DESC"
  | move => "FOR tasks MOVE FROM 0 TO -1"
  | deduplicate => "FOR tags DEDUPLICATE"
  | merge => "FOR metadata MERGE \x7breviewed: true\x7d"
  | mergeOverwrite => "FOR metadata MERGE_OVERWRITE \x7breviewed: true\x7d"
  | _ => "FOR tags APPEND \"reviewed\""

/-! ### Expectations -/

/-- What should have come next. -/
inductive Expectation where
  -- paths and literals
  | pathStep
  | literal
  | closingBracket
  | listSeparator
  | objectKey
  | colon (key : String)
  | objectSeparator
  -- conditions
  | condition
  | conditionStart
  | closingParen
  | fieldPath
  | pathAfterHas
  | pathAfterNotHas
  | pathAfterAny
  | whereAfterAny (path : Path)
  | comparedValue (path : Path) (op : Comparison)
  | containedValue (path : Path)
  | valueList (path : Path)
  -- actions on fields
  | actionVerb
  | fieldOf (verb : FieldVerb)
  | assignedValue (path : Path)
  | renameTo (path : Path)
  | renameTarget (path : Path)
  | amount (path : Path) (verb : FieldVerb)
  -- actions on collections
  | collectionPath
  | filter (target : Path)
  | collectionVerb (target : Path)
  | anyCollectionVerb (target : Path)
  | assignedField (target : Path)
  | addedValue (target : Path) (verb : Keyword)
  | insertedValue (target : Path)
  | insertPosition (target : Path)
  | insertIndex (target : Path)
  | removedValues (target : Path)
  | removedValue (target : Path)
  | sortField (target : Path)
  | mergedObject (target : Path) (verb : Keyword)
  | moveSource (target : Path)
  | moveFrom (target : Path)
  | moveTo (target : Path) (source : Int)
  | moveTarget (target : Path) (source : Int)
  | destination
  | anchor (target : Path) (placement : Keyword)

/-- An expectation in words. -/
def Expectation.phrase : Expectation → String
  | pathStep => "a field name or index after '.'"
  | literal => "a value (string, number, true, false, null, list or object)"
  | closingBracket => "']' to close the list"
  | listSeparator => "',' or ']' in list"
  | objectKey => "a key (name or string) in object"
  | colon key => s!"':' after object key '{key}'"
  | objectSeparator => "',' or '\x7d' in object"
  | condition => "a condition"
  | conditionStart => "a field path, HAS, ANY, NOT or '('"
  | closingParen => "')' to close '('"
  | fieldPath => "a field path"
  | pathAfterHas => "a field path after HAS (e.g. HAS reviewed)"
  | pathAfterNotHas => "a field path after NOT HAS (e.g. NOT HAS reviewed)"
  | pathAfterAny => "an array path after ANY (e.g. ANY tasks WHERE done = false)"
  | whereAfterAny p => s!"WHERE after 'ANY {p.text}' (e.g. ANY {p.text} WHERE done = false)"
  | comparedValue p op =>
    s!"a value after '{p.text} {op.symbol}' (e.g. {p.text} {op.symbol} \"draft\")"
  | containedValue p =>
    s!"a value after '{p.text} CONTAINS' (e.g. {p.text} CONTAINS \"work\")"
  | valueList p => s!"a list after '{p.text} IN' (e.g. {p.text} IN [\"draft\", \"review\"])"
  | actionVerb => "an action verb (SET, DELETE, RENAME, INCREMENT, DECREMENT) or FOR"
  | fieldOf verb => s!"a field path (e.g. {verb.sample})"
  | assignedValue p => s!"a value for '{p.text}' (e.g. SET {p.text} \"published\")"
  | renameTo p => s!"TO after 'RENAME {p.text}' (e.g. RENAME {p.text} TO new_name)"
  | renameTarget p =>
    s!"a new field path after 'RENAME {p.text} TO' (e.g. RENAME {p.text} TO new_name)"
  | amount p verb => s!"a number after '{p.text}' (e.g. {verb.sample})"
  | collectionPath => "a field path after FOR (e.g. FOR tags SORT)"
  | filter t =>
    s!"a condition after 'FOR {t.text} WHERE' (e.g. FOR {t.text} WHERE done = true REMOVE)"
  | collectionVerb t => s!"a collection verb after 'FOR {t.text}'"
  | anyCollectionVerb t =>
    s!"a collection verb after 'FOR {t.text}' (APPEND, PREPEND, INSERT, REMOVE, REMOVE_ALL, " ++
      "SORT, MOVE, DEDUPLICATE, MERGE, MERGE_OVERWRITE or SET with WHERE)"
  | assignedField t =>
    s!"a field path after SET (e.g. FOR {t.text} WHERE done = false SET status \"open\")"
  | addedValue t verb => s!"a value after {verb.name} (e.g. FOR {t.text} {verb.name} \"value\")"
  | insertedValue t => s!"a value after INSERT (e.g. FOR {t.text} INSERT \"value\" AT 0)"
  | insertPosition t =>
    "AT index after INSERT value; INSERT requires an explicit position " ++
      s!"(e.g. FOR {t.text} INSERT \"value\" AT 0, or AT -1 to append)"
  | insertIndex t => s!"an integer index after AT (e.g. FOR {t.text} INSERT \"value\" AT 2)"
  | removedValues t =>
    s!"a value or list after REMOVE_ALL (e.g. FOR {t.text} REMOVE_ALL [\"a\", \"b\"])"
  | removedValue t =>
    s!"a value after REMOVE, or a WHERE clause before it (e.g. FOR {t.text} REMOVE \"draft\", " ++
      s!"or FOR {t.text} WHERE done = true REMOVE)"
  | sortField t => s!"a field path after BY (e.g. FOR {t.text} SORT BY priority)"
  | mergedObject t verb =>
    s!"an object after {verb.name} (e.g. FOR {t.text} {verb.name} \x7breviewed: true\x7d)"
  | moveSource t => s!"an integer index after MOVE FROM (e.g. FOR {t.text} MOVE FROM 0 TO 2)"
  | moveFrom t => s!"FROM or TO after MOVE (e.g. FOR {t.text} MOVE FROM 0 TO 2)"
  | moveTo t i => s!"TO after 'MOVE FROM {i}' (e.g. FOR {t.text} MOVE FROM {i} TO 0)"
  | moveTarget t i => s!"an integer index after TO (e.g. FOR {t.text} MOVE FROM {i} TO 0)"
  | destination => "START, END, AFTER condition or BEFORE condition after MOVE TO"
  | anchor t placement =>
    s!"a condition after MOVE TO {placement.name} " ++
      s!"(e.g. FOR {t.text} WHERE @ = \"a\" MOVE TO {placement.name} @ = \"b\")"

/-! ### Complaints -/

/-- What is wrong with a rule text whose tokens are fine. -/
inductive Complaint where
  | expected (what : Expectation) (found : Option Token)
  /-- A keyword stands where a path should begin. -/
  | keywordAsPath (what : Expectation) (kw : Keyword)
  -- conditions
  | noCondition
  | afterCondition (found : Option Token)
  | danglingNot (path : Path) (found : Option Token)
  -- actions on fields
  | noAction
  | afterAction (found : Option Token)
  | leadingWhere
  | missingFor (verb : Keyword)
  | secondVerb (kw : Keyword) (verb : FieldVerb)
  | wholeDocument (path : Path) (verb : FieldVerb)
  | filterOnFields
  -- actions on collections
  | forOnFields (verb : FieldVerb) (kw : Keyword)
  | filterNotTaken (kw : Keyword) (sample : String)
  | setWithoutFilter (target : Path)
  | removeWithValue (target : Path)
  | moveWithoutFilter (target : Path)
  | lateFilter (target : Path) (verb : Verb)

/-- A complaint in words. -/
def Complaint.message : Complaint → String
  | expected what found => s!"Expected {what.phrase}, found {Token.describeNext found}"
  | keywordAsPath what kw =>
    s!"Expected {what.phrase}, found keyword {kw.name} " ++
      s!"(quote field names that are keywords: \"{kw.name}\")"
  | noCondition => "Expected a condition, found end of input (e.g. status = \"draft\")"
  | afterCondition found =>
    s!"Unexpected {Token.describeNext found} after complete condition " ++
      "(combine conditions with AND / OR)"
  | danglingNot p found =>
    s!"Expected EXISTS, CONTAINS or IN after '{p.text} NOT', found {Token.describeNext found} " ++
      "(to negate a condition write NOT before it)"
  | noAction => "Expected an action, found end of input (e.g. SET status \"published\")"
  | afterAction found => s!"Unexpected {Token.describeNext found} after complete action"
  | leadingWhere =>
    "WHERE is only allowed after FOR path and before the verb " ++
      "(e.g. FOR tasks WHERE done = true REMOVE)"
  | missingFor verb =>
    s!"{verb.name} needs a target introduced by FOR (e.g. {verb.collectionSample})"
  | secondVerb kw verb =>
    s!"Expected a field path, found {kw.name} " ++
      s!"(one action uses one verb; list fields with commas: {verb.sample})"
  | wholeDocument p verb =>
    s!"Expected a field path, found '{p.text}' " ++
      s!"(scalar operations cannot target the whole document; name a field: {verb.sample})"
  | filterOnFields =>
    "Scalar operations do not accept WHERE; to update matching array elements write " ++
      "FOR path WHERE condition SET field value " ++
      "(e.g. FOR tasks WHERE done = false SET status \"open\")"
  | forOnFields verb kw => s!"{kw.name} does not take a FOR prefix (e.g. {verb.sample})"
  | filterNotTaken kw sample => s!"{kw.name} does not accept a WHERE clause (e.g. {sample})"
  | setWithoutFilter t =>
    s!"SET on elements of '{t.text}' requires a WHERE clause; there is no unconditional form " ++
      s!"(e.g. FOR {t.text} WHERE status = \"open\" SET status \"done\"; " ++
      s!"to replace the whole field use SET {t.text} value)"
  | removeWithValue t =>
    "REMOVE with WHERE removes every matching element and takes no value " ++
      s!"(e.g. FOR {t.text} WHERE @ = \"draft\" REMOVE)"
  | moveWithoutFilter t =>
    "MOVE TO needs a WHERE clause selecting the elements to move " ++
      s!"(e.g. FOR {t.text} WHERE @ = \"urgent\" MOVE TO START; " ++
      s!"to move by position write FOR {t.text} MOVE FROM 0 TO 2)"
  | lateFilter t verb =>
    s!"WHERE must come before the verb (e.g. FOR {t.text} WHERE condition {verb.name} ...)"

/-! ### Rule errors -/

/-- Why a text is no rule: it has no tokens, or its tokens are no rule. -/
inductive RuleCause where
  | lexical (cause : LexCause)
  | grammatical (complaint : Complaint)

/-- A cause and its place in the text, in characters. -/
structure RuleError where
  cause : RuleCause
  offset : Nat

namespace RuleError

/-- The message without the place. -/
def text (e : RuleError) : String :=
  match e.cause with
  | .lexical cause => cause.message
  | .grammatical complaint => complaint.message

/-- The message with the place. -/
def message (e : RuleError) : String := s!"{e.text} at offset {e.offset}"

end RuleError

end MetadataRules
