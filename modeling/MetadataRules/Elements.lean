/-
MetadataRules/Elements.lean

Edits of an array: inserting, removing, sorting and moving its elements.

Everything here works on lists of values and on tests given as functions.
Whether two elements are the same is always the structural equality of values.
-/
import MetadataRules.Action
import MetadataRules.Value.Order

namespace MetadataRules

namespace Elements

/-! ### Inserting -/

/-- Where a value goes that is inserted at an index: `0` is in front, `-1` at the
end, `-2` before the last element, and an index beyond an end is that end. -/
def insertPosition (length : Nat) (index : Int) : Nat :=
  if 0 ≤ index then min index.toNat length else length - (index.natAbs - 1)

/-- The elements with a value inserted at an index. -/
def insertAt (items : List Value) (v : Value) (index : Int) : List Value :=
  items.insertIdx (insertPosition items.length index) v

/-! ### Removing -/

/-- The elements that equal none of the targets. -/
def removeAll (items targets : List Value) : List Value :=
  items.filter fun item => !item.isAmong targets

/-- The elements without the first one that equals the target. -/
def removeFirst (items : List Value) (target : Value) : List Value :=
  items.eraseP fun item => item.equal target

/-- The elements that fail a test. -/
def removeWhere (items : List Value) (test : Value → Bool) : List Value :=
  items.filter fun item => !test item

/-- The elements that equal none of `kept` and no element before them. -/
def dedupAfter (kept : List Value) : List Value → List Value
  | [] => []
  | v :: rest =>
    if v.isAmong kept then dedupAfter kept rest else v :: dedupAfter (kept ++ [v]) rest

/-- The elements without those that equal an earlier one. -/
def deduplicate (items : List Value) : List Value := dedupAfter [] items

/-! ### Sorting -/

/-- The value that an element is sorted by: what a path names in it, or the element. -/
def sortKey (by_ : Option Path) (item : Value) : Option Value :=
  match by_ with
  | some p => p.get? item
  | none => some item

/-- Whether a key may stand before another: not greater when ascending, not less
when descending. -/
def mayPrecede (direction : SortDirection) (a b : Option Value) : Bool :=
  match direction with
  | .ascending => Value.sortOrderOption a b != .gt
  | .descending => Value.sortOrderOption a b != .lt

/-- The elements in the order of their keys.  Elements with equal keys stay in
their order, whatever the direction. -/
def sort (items : List Value) (by_ : Option Path) (direction : SortDirection) : List Value :=
  let keyed := items.map fun item => (sortKey by_ item, item)
  (keyed.mergeSort fun a b => mayPrecede direction a.1 b.1).map Prod.snd

/-! ### Moving -/

/-- An index that an array does not have. -/
structure OutOfRange where
  index : Int
  length : Nat
deriving DecidableEq

def OutOfRange.message (e : OutOfRange) : String :=
  s!"index {e.index} is out of range for array of length {e.length}"

/-- What a move by index answers: the elements and the two positions it resolved. -/
structure Moved where
  items : List Value
  source : Nat
  target : Nat

/-- Takes the element at one index out and puts it back so that it stands at another. -/
def moveIndex (items : List Value) (source target : Int) : Except OutOfRange Moved :=
  match position? source items.length with
  | none => .error ⟨source, items.length⟩
  | some s =>
    match position? target items.length with
    | none => .error ⟨target, items.length⟩
    | some t =>
      match items[s]? with
      | some v => .ok ⟨(items.eraseIdx s).insertIdx t v, s, t⟩
      | none => .ok ⟨items, s, t⟩

/-- Where a block of elements goes among the remaining ones. -/
inductive Placement where
  | start
  | finish
  | after (anchor : Value → Bool)
  | before (anchor : Value → Bool)

/-- The place of a block among the remaining elements; none without an anchor. -/
def Placement.position? (rest : List Value) : Placement → Option Nat
  | start => some 0
  | finish => some rest.length
  | after anchor => (rest.findIdx? anchor).map (· + 1)
  | before anchor => rest.findIdx? anchor

/-- What a move of matching elements answers. -/
inductive BlockMove where
  /-- The elements after the move, and how many were moved. -/
  | moved (items : List Value) (count : Nat)
  | noMatches
  | anchorNotFound

/-- Moves the elements that pass a test, as one block in their order, among the others. -/
def moveWhere (items : List Value) (test : Value → Bool) (placement : Placement) : BlockMove :=
  let block := items.filter test
  let rest := items.filter fun item => !test item
  if block.isEmpty then .noMatches
  else match placement.position? rest with
    | some pos => .moved (rest.take pos ++ (block ++ rest.drop pos)) block.length
    | none => .anchorNotFound

end Elements

end MetadataRules
