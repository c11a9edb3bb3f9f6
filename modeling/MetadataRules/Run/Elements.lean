/-
MetadataRules/Run/Elements.lean

What the verbs of a collection do to the elements of an array, and the lines
they report.

Verbs that select elements need a filter; without one they fail, which no rule
text can bring about.  `SET` on matching elements goes through them in order
and stops at the first write that is refused.
-/
import MetadataRules.Run.Effect

namespace MetadataRules

namespace Verb

/-- The verbs that work on the elements selected by a filter. -/
def takesFilter : Verb → Bool
  | removeFirst _ | removeMatching | moveMatching _ | update _ => true
  | _ => false

/-- The verbs that make an array where there is none. -/
def isInserting : Verb → Bool
  | append _ | prepend _ | insert _ _ => true
  | _ => false

end Verb

namespace Run

/-! ### Writes to matching elements -/

/-- What writing several fields of one element leaves behind. -/
structure Assigned where
  value : Value
  refused : Option (Path × Refusal)

/-- Writes fields of a value in order, up to the first refusal. -/
def assignAll (v : Value) : List (Path × Value) → Assigned
  | [] => ⟨v, none⟩
  | (p, new) :: rest =>
    let written := p.set v new
    match written.answer with
    | .ok _ => assignAll written.value rest
    | .error r => ⟨written.value, some (p, r)⟩

/-- The line about an element that was updated. -/
def updatedLine (target : Path) (index : Nat) (values : List (Path × Value)) : String :=
  let fields := ", ".intercalate (values.map fun (p, v) => s!"{p.text} = {v.compact}")
  s!"Updated {target.text}[{index}]: {fields}"

/-- Writes fields of the elements that pass a test; `index` is the position of the
first of the given elements. -/
def updateFrom (target : Path) (test : Value → Bool) (values : List (Path × Value))
    (index : Nat) : List Value → Effect (List Value)
  | [] => .unchanged []
  | item :: rest =>
    if test item then
      let assigned := assignAll item values
      match assigned.refused with
      | some (p, r) => .failed (assigned.value :: rest) (.elementWrite target index p r)
      | none =>
        let below := updateFrom target test values (index + 1) rest
        let line := if assigned.value.equal item then [] else [updatedLine target index values]
        { below with after := assigned.value :: below.after, changes := line ++ below.changes }
    else (updateFrom target test values (index + 1) rest).lift (item :: ·)

/-- Writes fields of every element that passes a test. -/
def update (target : Path) (test : Value → Bool) (values : List (Path × Value))
    (items : List Value) : Effect (List Value) :=
  if items.any test then updateFrom target test values 0 items
  else .warned items s!"SET: no elements of '{target.text}' matched WHERE"

/-! ### Verbs -/

/-- A sort, told of when it changes the order. -/
def sort (target : Path) (by_ : Option Path) (direction : SortDirection)
    (items : List Value) : Effect (List Value) :=
  let sorted := Elements.sort items by_ direction
  let word := match direction with
    | .ascending => "ascending"
    | .descending => "descending"
  if Value.equalItems sorted items then .unchanged sorted
  else match by_ with
    | some p => .changed sorted s!"Sorted {target.text} by {p.text} ({word})"
    | none => .changed sorted s!"Sorted {target.text} ({word})"

/-- A destination with its anchor as a test. -/
def placement (clock : Clock) : Destination → Elements.Placement
  | .start => .start
  | .finish => .finish
  | .after anchor => .after (anchor.holds clock)
  | .before anchor => .before (anchor.holds clock)

/-- A destination in words. -/
def placementLabel : Destination → String
  | .start => "start"
  | .finish => "end"
  | .after _ => "after anchor"
  | .before _ => "before anchor"

/-- A move of matching elements, told of when it changes the order. -/
def moveMatching (clock : Clock) (target : Path) (test : Value → Bool) (d : Destination)
    (items : List Value) : Effect (List Value) :=
  let label := placementLabel d
  match Elements.moveWhere items test (placement clock d) with
  | .moved moved n =>
    if Value.equalItems moved items then .unchanged moved
    else .changed moved s!"Moved {n} matching element(s) of {target.text} to {label}"
  | .noMatches => .warned items s!"MOVE: no elements of '{target.text}' matched WHERE"
  | .anchorNotFound =>
    .warned items s!"MOVE: no element of '{target.text}' matched the {label} condition"

/-- A move by position, told of when the positions differ. -/
def moveIndex (target : Path) (source destination : Int) (items : List Value) :
    Effect (List Value) :=
  match Elements.moveIndex items source destination with
  | .error e => .failed items (.indexOutOfRange .move target e)
  | .ok m =>
    if m.source = m.target then .unchanged m.items
    else .changed m.items s!"Moved {target.text}[{m.source}] to index {m.target}"

/-- The effect of a verb on the elements that a filter selects. -/
def withFilter (verb : Verb) (target : Path) (filter : Option Condition) (items : List Value)
    (effect : Condition → Effect (List Value)) : Effect (List Value) :=
  match filter with
  | some c => effect c
  | none => .failed items (.filterRequired verb.keyword target)

/-- What a verb does to the elements of its target. -/
def editElements (clock : Clock) (target : Path) (filter : Option Condition) (verb : Verb)
    (items : List Value) : Effect (List Value) :=
  match verb with
  | .append l =>
    let v := l.resolve clock
    .changed (items ++ [v]) s!"Appended {v.compact} to {target.text}"
  | .prepend l =>
    let v := l.resolve clock
    .changed (v :: items) s!"Prepended {v.compact} to {target.text}"
  | .insert l index =>
    let v := l.resolve clock
    let pos := Elements.insertPosition items.length index
    .changed (Elements.insertAt items v index)
      s!"Inserted {v.compact} into {target.text} at index {pos}"
  | .removeAll l =>
    let v := l.resolve clock
    let kept := Elements.removeAll items (l.entries.map (Literal.resolve clock))
    let removed := items.length - kept.length
    if removed = 0 then
      .warned items s!"REMOVE_ALL: {v.compact} not found in '{target.text}'"
    else
      .changed kept s!"Removed {removed} element(s) equal to {v.compact} from {target.text}"
  | .removeFirst l =>
    let v := l.resolve clock
    if items.any fun item => item.equal v then
      .changed (Elements.removeFirst items v) s!"Removed {v.compact} from {target.text}"
    else .warned items s!"REMOVE: {v.compact} not found in '{target.text}'"
  | .removeMatching =>
    withFilter verb target filter items fun c =>
      let kept := Elements.removeWhere items (c.holds clock)
      let removed := items.length - kept.length
      if removed = 0 then
        .warned items s!"REMOVE: no elements of '{target.text}' matched WHERE"
      else .changed kept s!"Removed {removed} matching element(s) from {target.text}"
  | .sort by_ direction => sort target by_ direction items
  | .moveIndex source destination => moveIndex target source destination items
  | .moveMatching d =>
    withFilter verb target filter items fun c =>
      moveMatching clock target (c.holds clock) d items
  | .deduplicate =>
    let kept := Elements.deduplicate items
    let removed := items.length - kept.length
    if removed = 0 then .unchanged kept
    else .changed kept s!"Removed {removed} duplicate(s) from {target.text}"
  | .update assignments =>
    withFilter verb target filter items fun c =>
      update target (c.holds clock) (assignments.map fun (p, l) => (p, l.resolve clock)) items
  | .merge _ _ => .failed items .mergeOfElements

end Run

end MetadataRules
