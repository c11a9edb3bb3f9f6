/-
MetadataRules/Keyword.lean

The reserved words of the rule language.

Keywords are written in upper case, so `status` and `in` remain field names.
`ofName?` looks a word up by its exact spelling.
-/
namespace MetadataRules

/-- A reserved word.  The words that clash with Lean's own end in an underscore. -/
inductive Keyword where
  | set
  | delete
  | rename
  | to_
  | increment
  | decrement
  | for_
  | where_
  | and
  | or
  | not
  | has
  | any
  | in_
  | contains
  | exists_
  | append
  | prepend
  | insert
  | at_
  | remove
  | removeAll
  | sort
  | by_
  | asc
  | desc
  | move
  | from_
  | start
  | end_
  | after
  | before
  | deduplicate
  | merge
  | mergeOverwrite
  | now
  | today
deriving DecidableEq

namespace Keyword

/-- The spelling of a keyword. -/
def name : Keyword → String
  | set => "SET"
  | delete => "DELETE"
  | rename => "RENAME"
  | to_ => "TO"
  | increment => "INCREMENT"
  | decrement => "DECREMENT"
  | for_ => "FOR"
  | where_ => "WHERE"
  | and => "AND"
  | or => "OR"
  | not => "NOT"
  | has => "HAS"
  | any => "ANY"
  | in_ => "IN"
  | contains => "CONTAINS"
  | exists_ => "EXISTS"
  | append => "APPEND"
  | prepend => "PREPEND"
  | insert => "INSERT"
  | at_ => "AT"
  | remove => "REMOVE"
  | removeAll => "REMOVE_ALL"
  | sort => "SORT"
  | by_ => "BY"
  | asc => "ASC"
  | desc => "DESC"
  | move => "MOVE"
  | from_ => "FROM"
  | start => "START"
  | end_ => "END"
  | after => "AFTER"
  | before => "BEFORE"
  | deduplicate => "DEDUPLICATE"
  | merge => "MERGE"
  | mergeOverwrite => "MERGE_OVERWRITE"
  | now => "NOW"
  | today => "TODAY"

/-- Every keyword. -/
def all : List Keyword :=
  [set, delete, rename, to_, increment, decrement, for_, where_, and, or, not, has, any, in_,
    contains, exists_, append, prepend, insert, at_, remove, removeAll, sort, by_, asc, desc,
    move, from_, start, end_, after, before, deduplicate, merge, mergeOverwrite, now, today]

/-- The keyword with the given spelling. -/
def ofName? (word : String) : Option Keyword := all.find? fun kw => kw.name == word

end Keyword

end MetadataRules
