/-
MetadataRules/Proofs/Gap.lean

The gaps of an array.

An array of length `n` has `n + 1` gaps, and an insertion fills one of them.  An
index that goes beyond an end stands for the gap at that end; every other one is
an index of the array that is one longer, and the gap it stands for before the
insertion is the position it stands for afterwards (`Elements.position?_succ`).
So one path reads the element that was inserted with an index, and removing what
it names closes the gap again (`Path.erase?_element_insertAt`).

The position is also computed on words of 64 bits, the way a machine does, with
subtractions that may fail.  None of them does (`Elements.exists_insertWord?`).
-/
import MetadataRules.Number.Fixed
import MetadataRules.Proofs.Position

namespace MetadataRules

/-! ### Words -/

theorem zero_le_iff_toInt {i : Int64} : 0 ≤ i ↔ 0 ≤ i.toInt := by
  rw [Int64.le_iff_toInt_le, Int64.toInt_zero]

/-- The bits of a signed word, read without a sign. -/
theorem toNat_toUInt64 (i : Int64) :
    (i.toUInt64.toNat : Int) = if 0 ≤ i.toInt then i.toInt else i.toInt + UInt64.size := by
  have hlt : i.toUInt64.toNat < UInt64.size := i.toUInt64.toNat_lt_size
  have hint : i.toInt = i.toUInt64.toBitVec.toInt := rfl
  rw [BitVec.toInt_eq_toNat_cond, UInt64.toNat_toBitVec] at hint
  rw [UInt64.size] at hlt ⊢
  split at hint <;> split <;> omega

/-- How far a negative word is below zero.  The least one has a distance as well. -/
theorem toNat_neg_toUInt64 {i : Int64} (h : i.toInt < 0) :
    (-i.toUInt64).toNat = i.toInt.natAbs := by
  have hword := toNat_toUInt64 i
  have hlow : -2 ^ 63 ≤ i.toInt := Int64.le_toInt i
  rw [if_neg (Int.not_le.2 h), UInt64.size] at hword
  rw [UInt64.toNat_neg, UInt64.size]
  omega

/-- A subtraction of words, none where it would go below zero. -/
def checkedSub (a b : UInt64) : Option UInt64 := if b ≤ a then some (a - b) else none

theorem checkedSub_of_le {a b : UInt64} (h : b.toNat ≤ a.toNat) : checkedSub a b = some (a - b) :=
  if_pos (UInt64.le_iff_toNat_le.2 h)

theorem toNat_getD_checkedSub (a b : UInt64) :
    ((checkedSub a b).getD 0).toNat = a.toNat - b.toNat := by
  unfold checkedSub
  split
  · rename_i h
    exact UInt64.toNat_sub_of_le a b h
  · rename_i h
    rw [UInt64.le_iff_toNat_le] at h
    exact (Nat.sub_eq_zero_of_le (Nat.le_of_not_le h)).symm

namespace Elements

/-- The position of an insertion, computed on words; none where a step of the computation leaves
their range.  Counting from the end stops at zero. -/
def insertWord? (length : UInt64) (index : Int64) : Option UInt64 :=
  if 0 ≤ index then some (min index.toUInt64 length)
  else (checkedSub (-index.toUInt64) 1).map fun fromEnd => (checkedSub length fromEnd).getD 0

/-- **The computation on words never leaves their range**, and gives the position. -/
theorem exists_insertWord? (length : UInt64) (index : Int64) :
    ∃ pos, insertWord? length index = some pos ∧
      pos.toNat = insertPosition length.toNat index.toInt := by
  unfold insertWord? insertPosition
  simp only [zero_le_iff_toInt]
  split
  · rename_i h
    have hword := toNat_toUInt64 index
    rw [if_pos h] at hword
    refine ⟨_, rfl, ?_⟩
    rw [UInt64.toNat_min]
    omega
  · rename_i h
    -- a negative index is at least one away from zero, so one can be taken off
    have hneg := toNat_neg_toUInt64 (Int.not_le.1 h)
    have hone : (1 : UInt64).toNat ≤ (-index.toUInt64).toNat := by
      rw [hneg, UInt64.toNat_one]
      omega
    rw [checkedSub_of_le hone]
    refine ⟨_, rfl, ?_⟩
    rw [toNat_getD_checkedSub, UInt64.toNat_sub_of_le _ _ (UInt64.le_iff_toNat_le.2 hone), hneg,
      UInt64.toNat_one]

example : insertWord? 3 Int64.minValue = some 0 := by decide

/-! ### Positions -/

variable {items : List Value} {v : Value} {i : Int} {n : Nat}

theorem insertPosition_eq (n : Nat) (i : Int) :
    (insertPosition n i : Int) = if 0 ≤ i then min i n else max (n + 1 + i) 0 := by
  unfold insertPosition
  split <;> omega

/-- An index between the ends stands for one position, before the insertion and after it. -/
theorem position?_succ (h : IsIndex (n + 1) i) :
    position? i (n + 1) = some (insertPosition n i) := by
  refine position?_eq_some_iff.2 ⟨h, ?_⟩
  obtain ⟨hlow, hhigh⟩ := h
  rw [insertPosition_eq]
  split <;> omega

/-- The other elements keep their order. -/
theorem insertAt_eq (items : List Value) (v : Value) (i : Int) :
    insertAt items v i = items.take (insertPosition items.length i) ++
      v :: items.drop (insertPosition items.length i) := by
  obtain ⟨front, back, hitems, hlength, hinsert⟩ :=
    List.exists_of_modifyTailIdx (List.cons v) (insertPosition_le items.length i)
  rw [insertAt, List.insertIdx, hinsert, ← hlength, hitems, List.take_left, List.drop_left]

theorem length_insertAt : (insertAt items v i).length = items.length + 1 :=
  List.length_insertIdx_of_le_length (insertPosition_le _ _) _

/-- Removing the element that was inserted with an index gives the elements back. -/
theorem dropChild?_insertAt (h : IsIndex (items.length + 1) i) :
    (Value.array (insertAt items v i)).dropChild? (.index i) = some (v, .array items) := by
  have hget : (insertAt items v i)[insertPosition items.length i]? = some v := by
    rw [insertAt, List.getElem?_insertIdx_self, if_pos (insertPosition_le _ _)]
  simp only [Value.dropChild?, length_insertAt, position?_succ h, Option.bind_some, hget,
    Option.map_some]
  rw [insertAt, List.eraseIdx_insertIdx_self]

end Elements

/-! ### Paths -/

namespace Path

variable {p : Path} {doc v : Value} {items : List Value} {i : Int}

/-- The path of an element of the array that a path names. -/
def element (p : Path) (i : Int) : Path := ⟨p.segments ++ [.index i]⟩

theorem steps_element (p : Path) (i : Int) : (p.element i).steps = p.steps ++ [.index i] :=
  steps_concat p (by simp)

/-- **Removing what was inserted restores the document.** -/
theorem erase?_element_insertAt (h : p.get? doc = some (.array items))
    (hi : IsIndex (items.length + 1) i) :
    (p.element i).erase? (p.replace doc (.array (Elements.insertAt items v i))) =
      some (v, doc) := by
  have hafter : Steps.get? (p.replace doc (.array (Elements.insertAt items v i))) p.steps =
      some (.array (Elements.insertAt items v i)) := Steps.get?_replace_self h
  rw [erase?, steps_element, Steps.erase?_concat hafter (Elements.dropChild?_insertAt hi), replace,
    Steps.replace_replace h, Steps.replace_eq_self h]

end Path

/-! ### Rules -/

namespace Action

variable [Decimals] {p : Path} {doc : Value} {items : List Value}

/-- A rule that inserts an element. -/
def insert (p : Path) (l : Literal) (i : Int) : Action := ⟨[.collection p none (.insert l i)]⟩

/-- An insertion into an array that is there succeeds. -/
theorem run_insert (clock : Clock) (h : p.get? doc = some (.array items)) (l : Literal) (i : Int) :
    ((insert p l i).run clock doc).success = true ∧
      ((insert p l i).run clock doc).newData =
        p.replace doc (.array (Elements.insertAt items (l.resolve clock) i)) := by
  have hrun : Run.operations clock (insert p l i).operations doc =
      (Run.editElements clock p none (.insert l i) items).lift
        fun after => p.replace doc (.array after) :=
    Run.operations_collection clock rfl (fun _ _ => Verb.noConfusion) h
  simp only [run, hrun]
  exact ⟨rfl, rfl⟩

/-- A rule that removes what a path names. -/
def delete (p : Path) : Action := ⟨[.delete p]⟩

theorem run_delete (clock : Clock) {gone rest : Value} (h : p.erase? doc = some (gone, rest)) :
    ((delete p).run clock doc).success = true ∧ ((delete p).run clock doc).newData = rest := by
  have hrun : Run.operations clock (delete p).operations doc =
      .changed rest s!"Deleted {p.text} (was {gone.compact})" := by
    rw [delete, Run.operations_cons_nil]
    simp only [Operation.apply, Run.delete, h]
  simp only [run, hrun]
  exact ⟨rfl, rfl⟩

end Action

/-- **An insertion and the paths of elements agree on what an index means.**

* An index stands for a position from the start or from the end, and beyond an end for that end.
  The value goes there, between the other elements in their order.
* Machine words are enough to compute the position.
* Where a rule inserts with an index that does not go beyond an end, the index names the new
  element afterwards.  Removing it restores the document, by the path or by a rule. -/
theorem Elements.insertAt_spec [Decimals] (items : List Value) (v : Value) (i : Int) :
    let n := items.length
    let pos := insertPosition n i
    (pos : Int) = (if 0 ≤ i then min i n else max (n + 1 + i) 0) ∧
    insertAt items v i = items.take pos ++ v :: items.drop pos ∧
    (∀ (length : UInt64) (index : Int64), length.toNat = n → index.toInt = i →
      ∃ word, insertWord? length index = some word ∧ word.toNat = pos) ∧
    (-(n + 1 : Int) ≤ i → i ≤ n → ∀ (p : Path) (doc : Value) (l : Literal) (clock now : Clock),
      p.get? doc = some (.array items) → l.resolve clock = v →
      let first := (Action.insert p l i).run clock doc
      let back := (Action.delete (p.element i)).run now first.newData
      first.success = true ∧ p.get? first.newData = some (.array (insertAt items v i)) ∧
      (p.element i).get? first.newData = some v ∧
      (p.element i).erase? first.newData = some (v, doc) ∧
      back.success = true ∧ back.newData = doc) := by
  intro n pos
  refine ⟨insertPosition_eq n i, insertAt_eq items v i, ?_, ?_⟩
  · rintro length index hlength rfl
    obtain ⟨word, hword, hpos⟩ := exists_insertWord? length index
    rw [hlength] at hpos
    exact ⟨word, hword, hpos⟩
  · rintro hlow hhigh p doc l clock now hget rfl
    have hi : IsIndex (n + 1) i := ⟨by omega, by omega⟩
    -- everything that is asked after the insertion is asked of one document
    obtain ⟨hsuccess, hafter⟩ := Action.run_insert clock hget l i
    have herase := Path.erase?_element_insertAt (v := l.resolve clock) hget hi
    obtain ⟨hback, hdoc⟩ := Action.run_delete now herase
    dsimp only
    rw [hafter]
    exact ⟨hsuccess, Steps.get?_replace_self hget, Steps.get?_of_erase? herase, herase, hback, hdoc⟩

/-- The first gap, counted from the end. -/
theorem Elements.insertAt_spec_run :
    let clock : Clock := ⟨2024, 1, 1, 0, 0, 0, 0⟩
    let p : Path := ⟨[.key "tags"]⟩
    let doc (items : List Value) : Value := .object [("tags", .array items)]
    let given := doc [.string "a", .string "b"]
    let first := (Action.insert p (.string "c") (-3)).run clock given
    Action.ofText "FOR tags INSERT \"c\" AT -3" = .ok (Action.insert p (.string "c") (-3)) ∧
      Action.ofText "DELETE tags.-3" = .ok (Action.delete (p.element (-3))) ∧
      (∃ word, insertWord? 2 (-3) = some word ∧ word.toNat = 0) ∧
      first.newData = doc [.string "c", .string "a", .string "b"] ∧
      (p.element (-3)).get? first.newData = some (.string "c") ∧
      ((Action.delete (p.element (-3))).run clock first.newData).newData = given := by
  intro clock p doc given first
  obtain ⟨-, -, hword, hrule⟩ := insertAt_spec [.string "a", .string "b"] (.string "c") (-3)
  obtain ⟨-, -, hread, -, -, hback⟩ :=
    hrule (by decide) (by decide) p given (.string "c") clock clock rfl rfl
  exact ⟨by decide +kernel, by decide +kernel, hword 2 (-3) rfl (by decide), rfl, hread, hback⟩

end MetadataRules
