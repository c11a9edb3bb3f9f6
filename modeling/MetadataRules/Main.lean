/-
MetadataRules/Main.lean

The program: reads the arguments, standard input where the document is not among
them, and the clock, and prints the report.
-/
import MetadataRules.Command.Line
import Std.Time.Zoned

namespace MetadataRules

/-- The local date and time. -/
def Clock.now : IO Clock := do
  let t ← Std.Time.PlainDateTime.now
  return { year := t.date.year.toInt
           month := t.date.month.toNat
           day := t.date.day.toNat
           hour := t.time.hour.toNat
           minute := t.time.minute.toNat
           second := t.time.second.toNat
           nanosecond := t.time.nanosecond.toNat }

/-- The text on standard input, unless a person would have to type it. -/
def pipedInput : IO (Option String) := do
  let input ← IO.getStdin
  if ← input.isTty then return none
  else return some (← input.readToEnd)

/-- How the program is called. -/
def usage : String :=
  "Usage:\n" ++
  "  metarule check [-c CONDITION] [-a ACTION]\n" ++
  "  metarule eval CONDITION [-i TEXT]\n" ++
  "  metarule apply ACTION [-c CONDITION] [-i TEXT] [-f yaml|json] [-p]\n" ++
  "  metarule docs\n" ++
  "  metarule doc CATEGORY\n" ++
  "  metarule onboard\n"

end MetadataRules

open MetadataRules in
/-- Runs the program on its arguments. -/
def main (arguments : List String) : IO UInt32 := do
  let output ← IO.getStdout
  let errors ← IO.getStderr
  match Command.Invocation.ofLine? arguments with
  | none =>
    errors.putStr usage
    return 2
  | some invocation =>
    let piped ← if invocation.needsInput then pipedInput else pure none
    let report := Command.run Yaml.codec (← Clock.now) piped invocation
    errors.putStr report.errors
    output.putStr report.output
    return UInt32.ofNat report.code
