/-
MetadataRules/Merge.lean

Merging one object into another.

Both merges keep the keys of the target in their order and add new keys at the
end.  The shallow one gives every key the value of the source.  The deep one
does so too, except where both sides hold an object: these are merged in turn.
-/
import MetadataRules.Value.Basic

namespace MetadataRules

namespace Merge

/-- Every key of the source takes the value of the source. -/
def shallow (target source : List (String × Value)) : List (String × Value) :=
  source.foldl (fun fs p => Fields.insert fs p.1 p.2) target

mutual

/-- Objects on both sides merge, any other value of the source replaces. -/
def deep (target : List (String × Value)) : List (String × Value) → List (String × Value)
  | [] => target
  | (key, v) :: rest => deep (Fields.insert target key (deepValue (Fields.get? target key) v)) rest

/-- The value of a key after a deep merge, given its value before. -/
def deepValue (old : Option Value) : Value → Value
  | .object incoming =>
    match old with
    | some (.object existing) => .object (deep existing incoming)
    | _ => .object incoming
  | v => v

end

end Merge

end MetadataRules
