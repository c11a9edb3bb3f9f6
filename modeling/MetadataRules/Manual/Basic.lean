/-
MetadataRules/Manual/Basic.lean

The topics of the manual, and the names by which they are found.

Letters of either case count the same in a name.
-/
import MetadataRules.Manual.Pages

namespace MetadataRules

/-- What a page of the manual is about. -/
inductive Topic where
  | rules
  | conditions
  | actions
  | collections
  | types
deriving DecidableEq

namespace Topic

/-- The names of a topic, the one in the overview first. -/
def names : Topic → List String
  | rules => ["syntax", "paths"]
  | conditions => ["conditions", "condition", "where"]
  | actions => ["actions", "action"]
  | collections => ["collections", "collection", "arrays", "for"]
  | types => ["types", "type", "values"]

/-- Every topic, in the order of the overview. -/
def all : List Topic := [rules, conditions, actions, collections, types]

/-- The topic of a name. -/
def ofName? (name : String) : Option Topic :=
  all.find? fun topic => topic.names.contains name.toLower

/-- The page about a topic. -/
def page : Topic → String
  | rules => Manual.syntaxPage
  | conditions => Manual.conditionsPage
  | actions => Manual.actionsPage
  | collections => Manual.collectionsPage
  | types => Manual.typesPage

end Topic

end MetadataRules
