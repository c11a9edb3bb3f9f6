/-
MetadataRules/Action.lean

Actions: the edits of a rule, in the order in which they are made.

An operation on a field stands by itself.  An operation on a collection names
its target, an optional filter on the elements, and a verb; which verbs take a
filter is checked both when the rule is read and when it runs.
-/
import MetadataRules.Condition.Basic

namespace MetadataRules

/-- The direction of a sort. -/
inductive SortDirection where
  | ascending
  | descending
deriving DecidableEq

/-- Where matching elements are moved to. -/
inductive Destination where
  | start
  | finish
  /-- Behind the first remaining element that passes the test. -/
  | after (anchor : Condition)
  /-- In front of the first remaining element that passes the test. -/
  | before (anchor : Condition)
deriving DecidableEq

/-- What is done to a collection. -/
inductive Verb where
  | append (value : Literal)
  | prepend (value : Literal)
  | insert (value : Literal) (at_ : Int)
  /-- Removes every element equal to an entry of the literal. -/
  | removeAll (value : Literal)
  /-- Removes the first element equal to the literal. -/
  | removeFirst (value : Literal)
  /-- Removes every element that passes the filter. -/
  | removeMatching
  | sort (by_ : Option Path) (direction : SortDirection)
  | moveIndex (source target : Int)
  /-- Moves the elements that pass the filter, as one block. -/
  | moveMatching (destination : Destination)
  | deduplicate
  /-- Merges an object into the target: deep or of the top level alone. -/
  | merge (value : Literal) (deep : Bool)
  /-- Writes fields of every element that passes the filter. -/
  | update (assignments : List (Path × Literal))
deriving DecidableEq

/-- The keyword of a verb. -/
def Verb.keyword : Verb → Keyword
  | append _ => .append
  | prepend _ => .prepend
  | insert _ _ => .insert
  | removeAll _ => .removeAll
  | removeFirst _ => .remove
  | removeMatching => .remove
  | sort _ _ => .sort
  | moveIndex _ _ => .move
  | moveMatching _ => .move
  | deduplicate => .deduplicate
  | merge _ true => .merge
  | merge _ false => .mergeOverwrite
  | update _ => .set

/-- The spelling of a verb in messages. -/
def Verb.name (verb : Verb) : String := verb.keyword.name

/-- A single edit. -/
inductive Operation where
  | set (path : Path) (value : Literal)
  | delete (path : Path)
  | rename (source target : Path)
  /-- Adds an amount to a number; no amount is one. -/
  | increment (path : Path) (amount : Option Number)
  /-- Takes an amount from a number; no amount is one. -/
  | decrement (path : Path) (amount : Option Number)
  | collection (target : Path) (filter : Option Condition) (verb : Verb)
deriving DecidableEq

/-- The edits of a rule, in order. -/
structure Action where
  operations : List Operation
deriving DecidableEq

end MetadataRules
