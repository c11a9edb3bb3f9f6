/-
MetadataRules/Path/Access.lean

Reading, writing and removing what a path names.

All four operations follow the steps of a path down a value:

* `get?` reads, and is `none` where a step leads nowhere;
* `replace` puts another value at a place that can be read;
* `set` writes, making an empty object of whatever is missing or `null` on the
  way, and answers with the value that was there before;
* `erase?` removes an entry or an element.

A write is refused where a step does not fit what it meets.  `Written` holds
the value after the write together with the answer, since steps that were made
before a refusal stay made.
-/
import MetadataRules.Path.Basic
import MetadataRules.Value.Basic

namespace MetadataRules

/-! ### One step -/

namespace Value

/-- The part of a value that a segment leads to. -/
def child? : Value → Segment → Option Value
  | v, .current => some v
  | .object fields, s => s.key?.bind (Fields.get? fields)
  | .array items, .index i => (position? i items.length).bind fun pos => items[pos]?
  | _, _ => none

/-- Puts another part where a segment leads to. -/
def putChild : Value → Segment → Value → Value
  | _, .current, new => new
  | .object fields, s, new =>
    match s.key? with
    | some key => .object (Fields.insert fields key new)
    | none => .object fields
  | .array items, .index i, new =>
    match position? i items.length with
    | some pos => .array (items.set pos new)
    | none => .array items
  | v, _, _ => v

/-- The entry or element that a segment names, and the value without it. -/
def dropChild? : Value → Segment → Option (Value × Value)
  | .object fields, s =>
    s.key?.bind fun key =>
      (Fields.get? fields key).map fun old => (old, .object (Fields.erase fields key))
  | .array items, .index i =>
    (position? i items.length).bind fun pos =>
      items[pos]?.map fun old => (old, .array (items.eraseIdx pos))
  | _, _ => none

end Value

/-! ### Refusals -/

/-- Why a write was refused. -/
inductive Refusal where
  /-- After `depth` steps there is a value that the next step does not lead into. -/
  | notContainer (depth : Nat) (found : Kind)
  /-- An index that the array it meets does not have. -/
  | outOfRange (index : Int) (length : Nat)
  /-- A step `@` where a key is needed. -/
  | currentNotWritable
deriving DecidableEq

namespace Refusal

/-- A refusal, seen from one step further up. -/
def deeper : Refusal → Refusal
  | notContainer depth found => notContainer (depth + 1) found
  | r => r

/-- The first `depth` steps of a path, in words. -/
def place (p : Path) (depth : Nat) : String :=
  if depth = 0 then "the document root" else Path.text ⟨p.steps.take depth⟩

/-- The message of a refusal to write to a path. -/
def message (p : Path) : Refusal → String
  | notContainer depth found =>
    s!"cannot write '{p.text}': '{place p depth}' is {found.name}, not an object"
  | outOfRange index length =>
    s!"cannot write '{p.text}': index {index} is out of range for array of length {length}"
  | currentNotWritable =>
    s!"cannot write '{p.text}': the current element cannot be replaced here"

end Refusal

/-- What a write leaves behind: the value afterwards, and the value that was
there before (if any) or the reason of a refusal. -/
structure Written where
  value : Value
  answer : Except Refusal (Option Value)

/-! ### Along a list of steps -/

namespace Steps

/-- The value at the end of the steps. -/
def get? (root : Value) : List Segment → Option Value
  | [] => some root
  | s :: rest => (root.child? s).bind fun child => get? child rest

/-- The value with another one at the end of the steps; unchanged where they lead nowhere. -/
def replace (root : Value) : List Segment → Value → Value
  | [], new => new
  | s :: rest, new =>
    match root.child? s with
    | some child => root.putChild s (replace child rest new)
    | none => root

/-- What a write goes on with: a missing or `null` value gives way to an empty object. -/
def container : Option Value → Value
  | none => .object []
  | some .null => .object []
  | some v => v

/-- Writes at the end of the steps, starting from a value that may be missing. -/
def set (old : Option Value) : List Segment → Value → Written
  | [], new => ⟨new, .ok old⟩
  | s :: rest, new =>
    match container old with
    | .object fields =>
      match s.key? with
      | some key =>
        let below := set (Fields.get? fields key) rest new
        ⟨.object (Fields.insert fields key below.value), below.answer.mapError Refusal.deeper⟩
      | none => ⟨.object fields, .error .currentNotWritable⟩
    | .array items =>
      match s with
      | .index i =>
        match position? i items.length with
        | some pos =>
          let below := set items[pos]? rest new
          ⟨.array (items.set pos below.value), below.answer.mapError Refusal.deeper⟩
        | none => ⟨.array items, .error (.outOfRange i items.length)⟩
      | _ => ⟨.array items, .error (.notContainer 0 .array)⟩
    | v => ⟨v, .error (.notContainer 0 v.kind)⟩

/-- Removes what the last step names; `none` when it is absent or when there is no step. -/
def erase? (root : Value) : List Segment → Option (Value × Value)
  | [] => none
  | [s] => root.dropChild? s
  | s :: rest =>
    (root.child? s).bind fun child =>
      (erase? child rest).map fun (old, without) => (old, root.putChild s without)

end Steps

/-! ### Along a path -/

namespace Path

/-- The value that a path names. -/
def get? (p : Path) (root : Value) : Option Value := Steps.get? root p.steps

/-- Puts another value where a path leads; unchanged where it leads nowhere. -/
def replace (p : Path) (root new : Value) : Value := Steps.replace root p.steps new

/-- Writes a value at a path, making the objects that are missing on the way. -/
def set (p : Path) (root new : Value) : Written := Steps.set (some root) p.steps new

/-- Removes what a path names: the removed value and the value without it. -/
def erase? (p : Path) (root : Value) : Option (Value × Value) := Steps.erase? root p.steps

end Path

end MetadataRules
