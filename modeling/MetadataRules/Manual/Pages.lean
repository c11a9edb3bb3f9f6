/-
MetadataRules/Manual/Pages.lean

The pages of the manual, line by line.

Each page is the text that the program prints, with a line break behind every
line.
-/
namespace MetadataRules

namespace Manual

/-- Lines as one text, with a line break behind each. -/
def page (lines : List String) : String := String.join (lines.map (· ++ "\n"))

/-- The list of topics, and a reference on one page. -/
def overview : String := page [
  "METARULE DOCUMENTATION",
  "",
  "A rule is a condition and an action. The condition selects documents; the",
  "action edits their metadata (YAML front matter).",
  "",
  "  condition:  status = \"draft\" AND NOT HAS reviewed",
  "  action:     SET status \"published\", reviewed TODAY",
  "",
  "DOCUMENTATION CATEGORIES",
  "",
  "  syntax        Paths, literals, quoting, and @ (the current element)",
  "  conditions    Comparisons, HAS/EXISTS, CONTAINS, IN, ANY, AND/OR/NOT",
  "  actions       SET, DELETE, RENAME, INCREMENT, DECREMENT",
  "  collections   FOR path ... array and object operations",
  "  types         Values, coercion, and ordering rules",
  "",
  "QUICK REFERENCE",
  "",
  "  field.sub.0           Path (dotted, integer segments index arrays)",
  "  \"due date\"            Quoted path segment",
  "  @                     Current element (inside WHERE)",
  "  = != < <= > >=        Comparison",
  "  HAS f / NOT HAS f     Field present / absent",
  "  ANY list WHERE c      Some element matches c",
  "  FOR list VERB ...     Collection operation",
  "",
  "Run 'metarule doc <category>' for detailed documentation.",
  "Run 'metarule onboard' for a short tutorial."]

/-- Paths and literals. -/
def syntaxPage : String := page [
  "SYNTAX - Paths and Literals",
  "",
  "PATHS",
  "  status",
  "  metadata.reviewed",
  "  items.0.name",
  "  \"due date\"",
  "    Dotted segments. A segment is an identifier (letters, digits, _ and -),",
  "    a quoted string, or an integer. Integers index arrays; negative values",
  "    count from the end (items.-1 is the last element).",
  "",
  "    Keywords may appear as keys after a dot: meta.END",
  "",
  "CURRENT ELEMENT",
  "  @",
  "  @.name",
  "    Inside ANY ... WHERE and FOR ... WHERE, paths are relative to the array",
  "    element being tested. @ names the element itself, which is how arrays",
  "    of plain strings are filtered:",
  "",
  "      FOR tags WHERE @ = \"urgent\" MOVE TO START",
  "",
  "LITERALS",
  "  \"text\" or 'text'      Strings, escapes: \\n \\t \\r \\\" \\' \\\\",
  "  42  -3  1.5  2e3      Numbers",
  "  true false null       Booleans and null (lower case)",
  "  [\"a\", \"b\"]            Arrays",
  "  \x7bkey: \"v\", n: 1\x7d      Objects (keys are identifiers or strings)",
  "  NOW                   Current local date-time, 2024-05-01T09:30:00",
  "  TODAY                 Current local date, 2024-05-01",
  "",
  "KEYWORDS",
  "  Keywords are upper case and case-sensitive. `set` is a field name,",
  "  `SET` is the verb.",
  "",
  "ERRORS",
  "  Syntax errors carry the character offset where parsing stopped and,",
  "  where possible, an example of the correct form:",
  "",
  "    status =",
  "    => Expected a value after 'status =' (e.g. status = \"draft\"), " ++
    "found end of input at offset 8"]

/-- Conditions. -/
def conditionsPage : String := page [
  "CONDITIONS",
  "",
  "COMPARISON",
  "  path = value      (== also accepted)",
  "  path != value",
  "  path < value   path <= value   path > value   path >= value",
  "",
  "    When both sides look numeric (\"10\" and 9) they compare as numbers.",
  "    Two strings order lexicographically. Any other ordering is false.",
  "    A missing field makes every comparison false, including !=.",
  "",
  "PRESENCE",
  "  HAS path          path EXISTS",
  "  NOT HAS path      path NOT EXISTS",
  "",
  "    A field holding null is present.",
  "",
  "TRUTHINESS",
  "  path",
  "    A bare path is true when the value is present and not false, 0,",
  "    \"\", null, [] or \x7b\x7d.",
  "",
  "CONTAINS",
  "  tags CONTAINS \"work\"",
  "  title CONTAINS \"draft\"",
  "  tags NOT CONTAINS \"archived\"",
  "",
  "    On an array: some element equals the value.",
  "    On a string: substring test.",
  "",
  "IN",
  "  status IN [\"draft\", \"review\"]",
  "  status NOT IN [\"done\"]",
  "",
  "ANY",
  "  ANY countsLog WHERE mantra = \"Brave New World\" AND count > 3",
  "  ANY tags WHERE @ = \"urgent\"",
  "",
  "    True when at least one element of the array satisfies the inner",
  "    condition. Inner paths are relative to the element. The inner",
  "    condition extends to the end of the enclosing group; use",
  "    parentheses to combine with further conditions:",
  "",
  "      (ANY tasks WHERE done = false) AND status = \"active\"",
  "",
  "LOGIC",
  "  NOT a          a AND b          a OR b          (a)",
  "",
  "    Precedence from tightest: NOT, AND, OR."]

/-- Actions on fields. -/
def actionsPage : String := page [
  "ACTIONS",
  "",
  "One action uses one verb. List several fields with commas.",
  "",
  "SET",
  "  SET status \"published\"",
  "  SET status = \"published\", reviewed TODAY",
  "  SET metadata.owner \"sam\"",
  "    Missing parents are created. Writing through a scalar is an error.",
  "",
  "DELETE",
  "  DELETE draft, wip",
  "    Deleting a missing field is a warning.",
  "",
  "RENAME",
  "  RENAME author TO creator",
  "  RENAME meta.old TO meta.new",
  "    Both paths start at the document root. A rename within one object",
  "    keeps the key's position. A missing source is a warning; an existing",
  "    target with a different value is an error.",
  "",
  "INCREMENT / DECREMENT",
  "  INCREMENT views",
  "  INCREMENT views 5, shares",
  "  DECREMENT stock 2.5",
  "    The default amount is 1. A missing field starts from 0. Numeric",
  "    strings are accepted; other values are an error.",
  "",
  "RESULTS",
  "  Every run reports:",
  "    success   all operations ran",
  "    warning   some operations had no effect (missing fields, no matches)",
  "    error     an operation failed; later operations did not run and",
  "              earlier ones are kept",
  "    skipped   the condition did not match (CLI only)"]

/-- Actions on arrays and objects. -/
def collectionsPage : String := page [
  "COLLECTIONS - FOR path ...",
  "",
  "ARRAYS",
  "  FOR tags APPEND \"reviewed\"",
  "  FOR tags PREPEND \"pinned\"",
  "  FOR tags INSERT \"urgent\" AT 1",
  "      AT 0 prepends, AT -1 appends, AT -2 inserts before the last element.",
  "",
  "  FOR tags REMOVE \"draft\"                 first equal element",
  "  FOR tags REMOVE_ALL \"draft\"             every equal element",
  "  FOR tags REMOVE_ALL [\"draft\", \"wip\"]",
  "  FOR tasks WHERE done = true REMOVE      every matching element",
  "",
  "  FOR tags SORT",
  "  FOR tasks SORT BY priority DESC",
  "      Stable. Missing sort fields come first in ascending order.",
  "      Mixed types: null < numbers < strings < booleans < arrays < objects.",
  "",
  "  FOR tasks MOVE FROM 0 TO -1",
  "  FOR tags WHERE @ = \"urgent\" MOVE TO START",
  "  FOR tasks WHERE done = true MOVE TO END",
  "  FOR tasks WHERE id = 3 MOVE TO AFTER id = 1",
  "  FOR tasks WHERE id = 3 MOVE TO BEFORE id = 1",
  "",
  "  FOR tags DEDUPLICATE",
  "",
  "  FOR countsLog WHERE mantra = \"Brave New World\" SET unit \"Meditations\", verified true",
  "      Sets fields on every matching element. SET @ value replaces the",
  "      element. FOR ... SET requires WHERE.",
  "",
  "  APPEND, PREPEND and INSERT create a missing array. Other verbs warn",
  "  when the array is missing. A target that is not an array is an error.",
  "",
  "OBJECTS",
  "  FOR metadata MERGE \x7breviewed: true, owner: \x7bname: \"sam\"\x7d\x7d",
  "      Deep merge: nested objects merge key by key, other values replace.",
  "",
  "  FOR metadata MERGE_OVERWRITE \x7bowner: \x7bname: \"sam\"\x7d\x7d",
  "      Shallow: top-level keys replace existing values wholesale.",
  "",
  "WHERE",
  "  Only SET, REMOVE and MOVE TO accept WHERE, and it must come before",
  "  the verb:",
  "",
  "    FOR tasks WHERE done = true REMOVE"]

/-- Values, coercion and order. -/
def typesPage : String := page [
  "TYPES",
  "",
  "VALUES",
  "  null, boolean, number, string, array, object",
  "",
  "  Numbers are 64-bit floats. Whole numbers print without a fraction.",
  "  Object keys keep the order they had in the document.",
  "",
  "COERCION",
  "  Comparisons, IN and INCREMENT treat strings holding a decimal number",
  "  (\"42\", \"-1.5\", \"2e3\") as numbers. Nothing else is coerced.",
  "",
  "EQUALITY",
  "  Structural: arrays compare element-wise, objects compare key by key",
  "  regardless of order.",
  "",
  "DATES",
  "  NOW and TODAY produce strings, so date fields compare",
  "  lexicographically:",
  "",
  "    due < TODAY",
  "    SET reviewed TODAY"]

/-- A short course for newcomers. -/
def tutorial : String := page [
  "WELCOME TO METARULE",
  "",
  "metarule edits YAML metadata with rules: a condition that selects a",
  "document and an action that changes it.",
  "",
  "STEP 1: TEST A CONDITION",
  "------------------------",
  "  echo 'status: draft' | metarule eval 'status = \"draft\"'",
  "  => true",
  "",
  "STEP 2: CHANGE A FIELD",
  "----------------------",
  "  echo 'status: draft' | metarule apply 'SET status \"published\"'",
  "  => success",
  "     Set status: \"draft\" → \"published\"",
  "     status: published",
  "",
  "STEP 3: ONLY WHEN IT MATCHES",
  "----------------------------",
  "  echo 'status: done' | metarule apply 'SET status \"published\"' " ++
    "--condition 'status = \"draft\"'",
  "  => skipped",
  "",
  "STEP 4: WORK WITH LISTS",
  "-----------------------",
  "  echo 'tags: [zebra, apple, banana]' | metarule apply 'FOR tags SORT'",
  "  => tags: [apple, banana, zebra]",
  "",
  "  echo 'tags: [work, draft, project]' | metarule apply 'FOR tags REMOVE_ALL \"draft\"'",
  "",
  "STEP 5: EDIT MATCHING ELEMENTS",
  "------------------------------",
  "  FOR countsLog WHERE mantra = \"Brave New World\" SET unit \"Meditations\"",
  "",
  "  Paths after WHERE are relative to each element.",
  "",
  "STEP 6: CHECK BEFORE RUNNING",
  "----------------------------",
  "  metarule check --condition 'status = '",
  "  => Invalid condition: Expected a value after 'status =' ...",
  "",
  "NEXT STEPS",
  "----------",
  "  metarule docs              List documentation categories",
  "  metarule doc collections   All FOR operations"]

end Manual

end MetadataRules
