/-
MetadataRules/Run/Effect.lean

What an operation does to a document, or a verb to the elements of an array.

An `Effect` holds what is there afterwards, the lines that tell of changes and
of what had no effect, and the failure that ended the work, if any.  Most
operations that fail leave everything as it was; only writes to many elements
may have written some of them before one is refused.
-/
import MetadataRules.Run.Failure

namespace MetadataRules

/-- The outcome of one step on a value of type `α`. -/
structure Effect (α : Type) where
  after : α
  changes : List String
  warnings : List String
  failure : Option Failure

namespace Effect

variable {α β : Type}

/-- Nothing to do. -/
def unchanged (a : α) : Effect α := ⟨a, [], [], none⟩

/-- A change and the line that tells of it. -/
def changed (a : α) (line : String) : Effect α := ⟨a, [line], [], none⟩

/-- Nothing done, for a reason worth a line. -/
def warned (a : α) (line : String) : Effect α := ⟨a, [], [line], none⟩

/-- Nothing done, for a reason that ends the run. -/
def failed (a : α) (failure : Failure) : Effect α := ⟨a, [], [], some failure⟩

/-- The effect on a whole of an effect on its part. -/
def lift (f : α → β) (e : Effect α) : Effect β := ⟨f e.after, e.changes, e.warnings, e.failure⟩

end Effect

end MetadataRules
