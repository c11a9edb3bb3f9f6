/-
MetadataRules/Proofs/Position.lean

Positions in an array.

An array of length `n` has the indices from `-n` to `n - 1`, two for each of its
positions (`position?_eq_some_iff`).  A move by index takes the element at one
position out of the others and puts it back at another, so the others are what
both arrays have in common (`Elements.eraseIdx_moveIndex`).  The array keeps its
length, and with it every index its meaning, and that is why the same two
indices take the element back (`Elements.moveIndex_moveIndex`).
-/
import MetadataRules.Number.Fixed
import MetadataRules.Proofs.Path.Laws
import MetadataRules.Proofs.Run.Silence

namespace MetadataRules

/-! ### Indices -/

section Indices

variable {index : Int} {length pos : Nat}

/-- The indices that an array of a length has. -/
def IsIndex (length : Nat) (index : Int) : Prop := -(length : Int) ≤ index ∧ index < length

theorem position?_eq_some_iff : position? index length = some pos ↔
    IsIndex length index ∧ (pos : Int) = if 0 ≤ index then index else length + index := by
  unfold position? IsIndex
  split <;> split <;> simp only [Option.some.injEq, reduceCtorEq, false_iff] <;> omega

theorem position?_eq_none_iff : position? index length = none ↔ ¬IsIndex length index := by
  unfold position? IsIndex
  split <;> split <;> simp only [reduceCtorEq, false_iff, true_iff] <;> omega

end Indices

namespace Elements

variable {items : List Value} {i j : Int} {m : Moved}

/-! ### Moving by index -/

theorem length_moveIndex (h : moveIndex items i j = .ok m) : m.items.length = items.length :=
  (moveIndex_perm h).length_eq

/-- The element that was moved stands at its target. -/
theorem getElem?_moveIndex (h : moveIndex items i j = .ok m) :
    ∃ v, items[m.source]? = some v ∧ m.items[m.target]? = some v := by
  obtain ⟨-, ht, v, hv, hitems⟩ := moveIndex_eq_ok_iff.1 h
  have htarget : m.target < items.length := lt_of_position? ht
  have hlength := List.length_eraseIdx_of_lt (List.getElem?_eq_some_iff.1 hv).1
  refine ⟨v, hv, ?_⟩
  rw [hitems, List.getElem?_insertIdx_self, if_pos (by omega)]

/-- The other elements stand as they did. -/
theorem eraseIdx_moveIndex (h : moveIndex items i j = .ok m) :
    m.items.eraseIdx m.target = items.eraseIdx m.source := by
  obtain ⟨-, -, v, -, hitems⟩ := moveIndex_eq_ok_iff.1 h
  rw [hitems, List.eraseIdx_insertIdx_self]

/-- **The same indices the other way round take the element back.** -/
theorem moveIndex_moveIndex (h : moveIndex items i j = .ok m) :
    moveIndex m.items j i = .ok ⟨items, m.target, m.source⟩ := by
  obtain ⟨hs, ht, -⟩ := moveIndex_eq_ok_iff.1 h
  obtain ⟨v, hv, hback⟩ := getElem?_moveIndex h
  -- the length is the same, so both indices stand for the positions they stood for
  rw [← length_moveIndex h] at hs ht
  refine moveIndex_eq_ok_iff.2 ⟨ht, hs, v, hback, ?_⟩
  obtain ⟨hlt, rfl⟩ := List.getElem?_eq_some_iff.1 hv
  rw [eraseIdx_moveIndex h, List.insertIdx_eraseIdx_getElem hlt]

theorem exists_moveIndex_iff :
    (∃ m, moveIndex items i j = .ok m) ↔ IsIndex items.length i ∧ IsIndex items.length j := by
  constructor
  · rintro ⟨m, h⟩
    obtain ⟨hs, ht, -⟩ := moveIndex_eq_ok_iff.1 h
    exact ⟨(position?_eq_some_iff.1 hs).1, (position?_eq_some_iff.1 ht).1⟩
  · rintro ⟨hi, hj⟩
    obtain ⟨s, hs⟩ := Option.ne_none_iff_exists'.1 fun h => position?_eq_none_iff.1 h hi
    obtain ⟨t, ht⟩ := Option.ne_none_iff_exists'.1 fun h => position?_eq_none_iff.1 h hj
    have hget := List.getElem?_eq_getElem (lt_of_position? hs)
    exact ⟨⟨(items.eraseIdx s).insertIdx t _, s, t⟩,
      moveIndex_eq_ok_iff.2 ⟨hs, ht, _, hget, rfl⟩⟩

theorem exists_moveIndex_error_iff :
    (∃ e, moveIndex items i j = .error e) ↔ ¬IsIndex items.length i ∨ ¬IsIndex items.length j := by
  rw [← not_and_or, ← exists_moveIndex_iff]
  cases moveIndex items i j with
  | ok m => simp
  | error e => simp

end Elements

/-! ### Rules -/

namespace Action

variable [Decimals] {items : List Value} {i j : Int} {p : Path} {doc : Value}

/-- A rule that moves an element by index. -/
def moveIndex (p : Path) (i j : Int) : Action := ⟨[.collection p none (.moveIndex i j)]⟩

/-- The effect of a move by index on a document with an array at its target. -/
theorem operations_moveIndex (clock : Clock) (h : p.get? doc = some (.array items)) :
    Run.operations clock (moveIndex p i j).operations doc =
      (Run.moveIndex p i j items).lift fun after => p.replace doc (.array after) :=
  Run.operations_collection clock rfl (fun _ _ => Verb.noConfusion) h

theorem run_moveIndex_of_ok (clock : Clock) (h : p.get? doc = some (.array items))
    {m : Elements.Moved} (hmoved : Elements.moveIndex items i j = .ok m) :
    ((moveIndex p i j).run clock doc).success = true ∧
      ((moveIndex p i j).run clock doc).newData = p.replace doc (.array m.items) := by
  simp only [run, operations_moveIndex clock h, Run.moveIndex, hmoved]
  split <;> exact ⟨rfl, rfl⟩

/-- A move by an index that the array does not have leaves the document as it is. -/
theorem run_moveIndex_of_error (clock : Clock) (h : p.get? doc = some (.array items))
    {e : Elements.OutOfRange} (hrange : Elements.moveIndex items i j = .error e) :
    ((moveIndex p i j).run clock doc).success = false ∧
      ((moveIndex p i j).run clock doc).newData = doc := by
  simp only [run, operations_moveIndex clock h, Run.moveIndex, hrange]
  exact ⟨rfl, Steps.replace_eq_self h⟩

end Action

/-- **A move by index can be taken back.**

* It fails exactly where the array does not have one of the two indices.
* Otherwise the element stands at its new position, the others stand as they did, and the move
  with the two indices exchanged succeeds and gives the array back.
* A rule that moves an element of an array fails as the move does, and then leaves the document
  as it is.  Where it succeeds, the rule with the two indices exchanged gives the document back. -/
theorem Elements.moveIndex_spec [Decimals] (items : List Value) (i j : Int) :
    ((∃ e, moveIndex items i j = .error e) ↔
      ¬IsIndex items.length i ∨ ¬IsIndex items.length j) ∧
    (∀ m, moveIndex items i j = .ok m →
      (m.source : Int) = (if 0 ≤ i then i else items.length + i) ∧
      (m.target : Int) = (if 0 ≤ j then j else items.length + j) ∧
      (∃ v, items[m.source]? = some v ∧ m.items[m.target]? = some v) ∧
      m.items.eraseIdx m.target = items.eraseIdx m.source ∧
      moveIndex m.items j i = .ok ⟨items, m.target, m.source⟩) ∧
    ∀ (p : Path) (doc : Value), p.get? doc = some (.array items) → ∀ clock now,
      let first := (Action.moveIndex p i j).run clock doc
      let back := (Action.moveIndex p j i).run now first.newData
      (first.success = false ↔ ∃ e, moveIndex items i j = .error e) ∧
      (first.success = false → first.newData = doc) ∧
      (first.success = true → back.success = true ∧ back.newData = doc) := by
  refine ⟨exists_moveIndex_error_iff, ?_, ?_⟩
  · intro m h
    obtain ⟨hs, ht, -⟩ := moveIndex_eq_ok_iff.1 h
    exact ⟨(position?_eq_some_iff.1 hs).2, (position?_eq_some_iff.1 ht).2, getElem?_moveIndex h,
      eraseIdx_moveIndex h, moveIndex_moveIndex h⟩
  · intro p doc hget clock now
    cases h : moveIndex items i j with
    | error e =>
      obtain ⟨hfails, hdoc⟩ := Action.run_moveIndex_of_error clock hget h
      refine ⟨iff_of_true hfails ⟨e, rfl⟩, fun _ => hdoc, ?_⟩
      intro hsuccess
      rw [hfails] at hsuccess
      cases hsuccess
    | ok m =>
      obtain ⟨hsuccess, hafter⟩ := Action.run_moveIndex_of_ok clock hget h
      have hmoved : p.get? (p.replace doc (.array m.items)) = some (.array m.items) :=
        Steps.get?_replace_self hget
      obtain ⟨hback, hdoc⟩ := Action.run_moveIndex_of_ok now hmoved (moveIndex_moveIndex h)
      have hrestored : p.replace (p.replace doc (.array m.items)) (.array items) = doc :=
        (Steps.replace_replace hget).trans (Steps.replace_eq_self hget)
      dsimp only
      rw [hsuccess, hafter]
      refine ⟨by simp, Bool.noConfusion, fun _ => ⟨hback, hdoc.trans hrestored⟩⟩

/-- The first element goes to the end and comes back from there. -/
theorem Elements.moveIndex_spec_run :
    let clock : Clock := ⟨2024, 1, 1, 0, 0, 0, 0⟩
    let p : Path := ⟨[.key "tags"]⟩
    let doc (items : List Value) : Value := .object [("tags", .array items)]
    let given := doc [.string "a", .string "b", .string "c"]
    let first := (Action.moveIndex p 0 (-1)).run clock given
    Action.ofText "FOR tags MOVE FROM 0 TO -1" = .ok (Action.moveIndex p 0 (-1)) ∧
      first.newData = doc [.string "b", .string "c", .string "a"] ∧
      ((Action.moveIndex p (-1) 0).run clock first.newData).newData = given := by
  intro clock p doc given first
  have hspec := moveIndex_spec [.string "a", .string "b", .string "c"] 0 (-1)
  obtain ⟨-, -, hback⟩ := hspec.2.2 p given rfl clock clock
  exact ⟨by decide +kernel, rfl, (hback rfl).2⟩

end MetadataRules
