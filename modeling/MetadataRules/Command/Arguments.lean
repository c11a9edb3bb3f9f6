/-
MetadataRules/Command/Arguments.lean

The arguments of a command line, sorted into options and operands.

An option has a long name behind two dashes or a letter behind one.  Its value
is the next argument, or stands behind the name: after an equals sign for a long
name, and right after the letter, with or without an equals sign, for a short
one.  Behind two dashes alone everything is an operand.
-/
namespace MetadataRules

namespace Command

/-- The options that take a value. -/
inductive OptionName where
  | condition
  | action
  | input
  | format
deriving DecidableEq

namespace OptionName

def ofWord? : String → Option OptionName
  | "condition" => some condition
  | "action" => some action
  | "input" => some input
  | "format" => some format
  | _ => none

def ofLetter? : Char → Option OptionName
  | 'c' => some condition
  | 'a' => some action
  | 'i' => some input
  | 'f' => some format
  | _ => none

end OptionName

/-- An argument, or an option together with its value. -/
inductive Argument where
  | operand (text : String)
  | option (name : OptionName) (value : String)
  | pretty

/-- What an argument says, and the option that waits for the next one as its value. -/
structure Heard where
  arguments : List Argument
  waiting : Option OptionName

/-- Letters behind a dash. -/
def hearLetters? : List Char → Option Heard
  | [] => some ⟨[], none⟩
  | 'p' :: rest => (hearLetters? rest).map fun h => ⟨.pretty :: h.arguments, h.waiting⟩
  | letter :: rest =>
    (OptionName.ofLetter? letter).map fun name =>
      match rest with
      | [] => ⟨[], some name⟩
      | '=' :: value => ⟨[.option name (String.ofList value)], none⟩
      | value => ⟨[.option name (String.ofList value)], none⟩

/-- A word behind two dashes. -/
def hearWord? (word : List Char) : Option Heard :=
  let name := String.ofList (word.takeWhile (· ≠ '='))
  match word.dropWhile (· ≠ '=') with
  | [] =>
    if name = "pretty" then some ⟨[.pretty], none⟩
    else (OptionName.ofWord? name).map fun option => ⟨[], some option⟩
  | _ :: value =>
    (OptionName.ofWord? name).map fun option => ⟨[.option option (String.ofList value)], none⟩

/-- A single argument. -/
def hear? (text : String) : Option Heard :=
  match text.toList with
  | '-' :: '-' :: word => hearWord? word
  | '-' :: letter :: rest => hearLetters? (letter :: rest)
  | _ => some ⟨[.operand text], none⟩

/-- The arguments of a command line, where `waiting` is the option before them that has
no value yet; none when an option is unknown or has no value. -/
def arguments? (waiting : Option OptionName) : List String → Option (List Argument)
  | [] => if waiting.isNone then some [] else none
  | text :: rest =>
    match waiting with
    | some name => (arguments? none rest).map (.option name text :: ·)
    | none =>
      if text = "--" then some (rest.map .operand)
      else do
        let heard ← hear? text
        let others ← arguments? heard.waiting rest
        return heard.arguments ++ others

end Command

end MetadataRules
