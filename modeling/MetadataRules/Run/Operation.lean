/-
MetadataRules/Run/Operation.lean

What a single operation does to a document.

`Operation.apply` is the one step that runs are made of.  Its effect names the
document afterwards even where the operation fails: it is the document before,
unless a write had already gone some way.  The decimals that counters are stepped
in are a parameter.
-/
import MetadataRules.Merge
import MetadataRules.Number.Step
import MetadataRules.Run.Elements

namespace MetadataRules

namespace Run

/-! ### Fields -/

/-- Writes a value; a value that is there already is no change. -/
def set (clock : Clock) (p : Path) (l : Literal) (doc : Value) : Effect Value :=
  let v := l.resolve clock
  if (p.get? doc).any fun old => old.equal v then .unchanged doc
  else
    let written := p.set doc v
    match written.answer with
    | .error r => .failed written.value (.refusedWrite p r)
    | .ok (some old) =>
      .changed written.value s!"Set {p.text}: {old.compact} → {v.compact}"
    | .ok none => .changed written.value s!"Added {p.text}: {v.compact}"

/-- Removes what a path names. -/
def delete (p : Path) (doc : Value) : Effect Value :=
  match p.erase? doc with
  | some (old, rest) => .changed rest s!"Deleted {p.text} (was {old.compact})"
  | none => .warned doc s!"DELETE: '{p.text}' does not exist"

/-- The document without what a path names. -/
def without (p : Path) (doc : Value) : Value :=
  match p.erase? doc with
  | some (_, rest) => rest
  | none => doc

/-- Renames a key in its object, at its place, when both paths name keys of one object. -/
def renameInPlace? (source target : Path) (doc : Value) : Option Value :=
  match source.splitKey?, target.splitKey? with
  | some (parent, old), some (parent', new) =>
    if parent = parent' then
      match parent.get? doc with
      | some (.object fields) => some (parent.replace doc (.object (Fields.rename fields old new)))
      | _ => none
    else none
  | _, _ => none

/-- Moves a value to a path that names nothing yet. -/
def moveValue (source target : Path) (v doc : Value) : Effect Value :=
  let line := s!"Renamed {source.text} → {target.text}"
  match renameInPlace? source target doc with
  | some renamed => .changed renamed line
  | none =>
    let written := target.set doc v
    match written.answer with
    | .error r => .failed written.value (.refusedWrite target r)
    | .ok _ => .changed (without source written.value) line

/-- Gives a field another path.  A target that holds the same value is taken over. -/
def rename (source target : Path) (doc : Value) : Effect Value :=
  match source.get? doc with
  | none => .warned doc s!"RENAME: '{source.text}' does not exist"
  | some v =>
    if source.steps = target.steps then .unchanged doc
    else if source.steps.isPrefixOf target.steps then
      .failed doc (.renameIntoSelf source target)
    else match target.get? doc with
      | none => moveValue source target v doc
      | some existing =>
        if existing.equal v then
          .changed (without source doc) s!"Renamed {source.text} → {target.text}"
        else .failed doc (.renameTargetExists source target)

/-- The number that a field holds before it is stepped: zero for a missing field,
and the value itself where it is no number. -/
def counter : Option Value → Except Value Number
  | none => .ok .zero
  | some v =>
    match v.asNumber? with
    | some n => .ok n
    | none => .error v

/-- Adds an amount to the number at a path; a missing field starts from zero. -/
def step [Decimals] (verb : Keyword) (word : String) (p : Path) (amount : Number)
    (doc : Value) : Effect Value :=
  match counter (p.get? doc) with
  | .error v => .failed doc (.notNumeric verb p v)
  | .ok n =>
    let updated := n.stepBy amount
    let written := p.set doc (.number updated)
    match written.answer with
    | .error r => .failed written.value (.refusedWrite p r)
    | .ok _ =>
      .changed written.value
        s!"{word} {p.text}: {String.ofList n.plainText} → {String.ofList updated.plainText}"

/-! ### Collections -/

/-- Merges an object into the object at a path, or adds it where there is none. -/
def merge (clock : Clock) (target : Path) (l : Literal) (deep : Bool) (doc : Value) :
    Effect Value :=
  let verb : Keyword := if deep then .merge else .mergeOverwrite
  let v := l.resolve clock
  match v with
  | .object source =>
    match (target.get? doc).getD .null with
    | .object existing =>
      let merged := if deep then Merge.deep existing source else Merge.shallow existing source
      let after := target.replace doc (.object merged)
      if (Value.object merged).equal (.object existing) then .unchanged after
      else .changed after s!"Merged {v.compact} into {target.text}"
    | .null =>
      let written := target.set doc v
      match written.answer with
      | .error r => .failed written.value (.refusedWrite target r)
      | .ok _ => .changed written.value s!"Added {target.text}: {v.compact}"
    | other => .failed doc (.notAnObject verb target other.kind)
  | other => .failed doc (.valueNotAnObject verb other.kind)

/-- Edits the elements of the array at a path, in a document where it is one. -/
def onArray (clock : Clock) (target : Path) (filter : Option Condition) (verb : Verb)
    (items : List Value) (doc : Value) : Effect Value :=
  (editElements clock target filter verb items).lift fun after =>
    target.replace doc (.array after)

/-- Edits the array at a path.  Inserting makes a missing array; any other verb warns. -/
def editArray (clock : Clock) (target : Path) (filter : Option Condition) (verb : Verb)
    (doc : Value) : Effect Value :=
  let found := target.get? doc
  match found.getD .null with
  | .array items => onArray clock target filter verb items doc
  | .null =>
    if verb.isInserting then
      let written := target.set doc (.array [])
      match written.answer with
      | .error r => .failed written.value (.refusedWrite target r)
      | .ok _ =>
        match target.get? written.value with
        | some (.array items) => onArray clock target filter verb items written.value
        | _ => .failed written.value (.notAnArray verb.keyword target none)
    else if found.isNone then
      .warned doc s!"{verb.name}: '{target.text}' does not exist"
    else .warned doc s!"{verb.name}: '{target.text}' is empty"
  | other => .failed doc (.notAnArray verb.keyword target (some other.kind))

/-- An operation on a collection. -/
def collection (clock : Clock) (target : Path) (filter : Option Condition) (verb : Verb)
    (doc : Value) : Effect Value :=
  if filter.isSome && !verb.takesFilter then .failed doc (.filterNotSupported verb.keyword)
  else match verb with
    | .merge l deep => merge clock target l deep doc
    | _ => editArray clock target filter verb doc

end Run

/-- What an operation does to a document under a clock. -/
def Operation.apply [Decimals] (clock : Clock) (op : Operation) (doc : Value) : Effect Value :=
  match op with
  | set p l => Run.set clock p l doc
  | delete p => Run.delete p doc
  | rename source target => Run.rename source target doc
  | increment p amount => Run.step .increment "Incremented" p (amount.getD .one) doc
  | decrement p amount => Run.step .decrement "Decremented" p (-(amount.getD .one)) doc
  | collection target filter verb => Run.collection clock target filter verb doc

end MetadataRules
