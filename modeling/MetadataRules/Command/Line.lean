/-
MetadataRules/Command/Line.lean

The program as a function: from arguments, input and clock to what it prints.

A line is read into an `Invocation` first.  Its `Report` has the results on
standard output, and the status of an apply and the errors on standard error.
The exit code tells truth from falsehood and success from failure: 0 when all is
well, 1 when a condition does not hold or an action fails, and 2 when there is no
result.  Counters are stepped in fixed decimals.
-/
import MetadataRules.Command.Arguments
import MetadataRules.Command.Basic
import MetadataRules.Manual.Basic
import MetadataRules.Number.Fixed

namespace MetadataRules

namespace Command

/-! ### Invocations -/

/-- What the program is asked to do. -/
inductive Invocation where
  | check (condition action : Option String)
  | test (condition : String) (input : Option String)
  | apply (action : String) (condition input : Option String) (format : Format) (pretty : Bool)
  | overview
  | topic (name : String)
  | tutorial

namespace Invocation

def operands (arguments : List Argument) : List String :=
  arguments.filterMap fun
    | .operand text => some text
    | _ => none

/-- The values given for an option. -/
def values (name : OptionName) (arguments : List Argument) : List String :=
  arguments.filterMap fun
    | .option other value => if other = name then some value else none
    | _ => none

def isPretty (arguments : List Argument) : Bool :=
  arguments.any fun
    | .pretty => true
    | _ => false

/-- Every option is one of those that the command takes, and none is given twice. -/
def fits (names : List OptionName) (pretty : Bool) (arguments : List Argument) : Bool :=
  [OptionName.condition, .action, .input, .format].all (fun name =>
    (values name arguments).length ≤ if names.contains name then 1 else 0) &&
  (pretty || !isPretty arguments)

/-- The format of a name; none given means YAML. -/
def format? : Option String → Option Format
  | none | some "yaml" => some .yaml
  | some "json" => some .json
  | _ => none

/-- The invocation of a command with its arguments. -/
def ofCommand? (command : String) (arguments : List Argument) : Option Invocation :=
  let value? := fun name => (values name arguments).head?
  match command, operands arguments with
  | "check", [] =>
    if fits [.condition, .action] false arguments then
      some (.check (value? .condition) (value? .action))
    else none
  | "eval", [condition] =>
    if fits [.input] false arguments then some (.test condition (value? .input)) else none
  | "apply", [action] =>
    if fits [.condition, .input, .format] true arguments then
      (format? (value? .format)).map fun format =>
        .apply action (value? .condition) (value? .input) format (isPretty arguments)
    else none
  | "docs", [] => if fits [] false arguments then some .overview else none
  | "doc", [name] => if fits [] false arguments then some (.topic name) else none
  | "onboard", [] => if fits [] false arguments then some .tutorial else none
  | _, _ => none

/-- The invocation of a command line. -/
def ofLine? : List String → Option Invocation
  | [] => none
  | command :: rest => (arguments? none rest).bind (ofCommand? command)

/-- The document is not among the arguments. -/
def needsInput : Invocation → Bool
  | .test _ none | .apply _ _ none _ _ => true
  | _ => false

end Invocation

/-! ### Reports -/

/-- What the program prints, and its exit code. -/
structure Report where
  code : Nat
  output : String
  errors : String

namespace Report

def success (output : String) : Report := ⟨0, output, ""⟩

def failure (e : CommandError) : Report := ⟨2, "", e.message ++ "\n"⟩

/-- The report on rules that can be read. -/
def ofChecked (checked : Checked) : Report :=
  let condition := match checked.condition with
    | some _ => "Condition syntax is valid\n"
    | none => ""
  let action := match checked.action with
    | some a => s!"Action syntax is valid ({a.operations.length} operation(s))\n"
    | none => ""
  success (condition ++ action)

/-- The report on a test. -/
def ofTest (holds : Bool) : Report :=
  if holds then success "true\n" else ⟨1, "false\n", ""⟩

/-- A text with a line break at its end. -/
def closeLine (text : String) : String :=
  if text.toList.getLast? = some '\n' then text else text ++ "\n"

/-- The lines about a run: the changes, the warning and the error. -/
def outcomeLines (outcome : Outcome) : List String :=
  outcome.changes.map (s!"  {·}\n") ++ (outcome.warning.map (s!"  warning: {·}\n")).toList ++
    (outcome.error.map (s!"  error: {·}\n")).toList

/-- The report on an apply.  A document is printed unless the action failed. -/
def ofApplied (codec : Yaml.Codec) (format : Format) (pretty : Bool) (applied : Applied) : Report :=
  let errors := s!"{applied.status.name}\n" ++
    String.join (applied.outcome.toList.flatMap outcomeLines)
  if applied.status = .error then ⟨1, "", errors⟩
  else ⟨0, closeLine (applied.result.render codec format pretty), errors⟩

/-- The report on a page of the manual. -/
def ofTopic (name : String) : Report :=
  match Topic.ofName? name with
  | some topic => success topic.page
  | none => failure (.unknownCategory name)

/-- The report on what a command gives. -/
def ofResult {α : Type} (report : α → Report) : Except CommandError α → Report
  | .ok a => report a
  | .error e => failure e

end Report

/-- Runs the program.  `piped` is what standard input holds, where it is not a terminal. -/
def run (codec : Yaml.Codec) (clock : Clock) (piped : Option String) : Invocation → Report
  | .check condition action => .ofResult .ofChecked (check condition action)
  | .test condition input =>
    .ofResult .ofTest (test codec clock condition (input.or piped))
  | .apply action condition input format pretty =>
    .ofResult (.ofApplied codec format pretty) (apply codec clock action condition (input.or piped))
  | .overview => .success Manual.overview
  | .topic name => .ofTopic name
  | .tutorial => .success Manual.tutorial

end Command

end MetadataRules
