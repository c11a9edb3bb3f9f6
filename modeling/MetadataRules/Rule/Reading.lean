/-
MetadataRules/Rule/Reading.lean

Reading a phrase off the front of a list of tokens.

A reader of tokens answers with a phrase or with a complaint and its place.
-/
import MetadataRules.Rule.Complaint
import MetadataRules.Taken

namespace MetadataRules

/-- A complaint and the tokens from its place on. -/
structure ParseFault where
  complaint : Complaint
  place : List Placed

/-- A phrase that was read off a list of tokens. -/
abbrev Parsed (α : Type) (bound : Nat) := Taken Placed α bound

/-- What a reader of tokens answers: a phrase or a complaint. -/
abbrev Reading (α : Type) (bound : Nat) := Attempt ParseFault Placed α bound

/-- The token that comes next, if any. -/
def nextToken? (ts : List Placed) : Option Token := ts.head?.map Placed.token

/-- The complaint that something else should have come next. -/
def unexpected (what : Expectation) (ts : List Placed) : ParseFault :=
  ⟨.expected what (nextToken? ts), ts⟩

/-- The place of a fault in a text that ends at `finish`. -/
def ParseFault.offset (fault : ParseFault) (finish : Nat) : Nat :=
  match fault.place with
  | [] => finish
  | p :: _ => p.offset

/-- Reads a whole text with a reader of tokens. -/
def readText {α : Type} (reader : List Placed → Except ParseFault α) (text : String) :
    Except RuleError α :=
  match tokenize text with
  | .error e => .error ⟨.lexical e.cause, e.offset⟩
  | .ok scan =>
    match reader scan.tokens with
    | .error fault => .error ⟨.grammatical fault.complaint, fault.offset scan.finish⟩
    | .ok a => .ok a

end MetadataRules
