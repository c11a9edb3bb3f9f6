/-
MetadataRules/Proofs/Block.lean

Where a block of elements goes.

The elements that are not moved part for the block.  There is one way to part
them that a placement allows (`Placement.Parts`), and the position that it answers
is the length of what is in front then (`Placement.parts_iff`).  So it can be said
without a word about positions what a move makes (`moveWhere_eq_moved_iff`).  After
it the same elements pass the test and the others are in the same order, and so the
block stays where it is when the move is made again (`moveWhere_again`).
-/
import MetadataRules.Proofs.Elements
import MetadataRules.Run.Elements

namespace MetadataRules

namespace Elements

namespace Placement

variable {placement : Placement} {front back rest : List Value} {anchor : Value → Bool}

/-- The test that the anchor of a placement passes. -/
def anchor? : Placement → Option (Value → Bool)
  | start | finish => none
  | after anchor | before anchor => some anchor

/-- How the others part for a block: behind nothing, in front of nothing, or right behind or
right before the first one that is the anchor. -/
inductive Parts : Placement → List Value → List Value → Prop
  | start (back : List Value) : Parts .start [] back
  | finish (front : List Value) : Parts .finish front []
  | after {anchor : Value → Bool} {front : List Value} {v : Value}
      (hfront : ∀ w ∈ front, anchor w = false) (hv : anchor v = true) (back : List Value) :
      Parts (.after anchor) (front ++ [v]) back
  | before {anchor : Value → Bool} {front : List Value} {v : Value}
      (hfront : ∀ w ∈ front, anchor w = false) (hv : anchor v = true) (back : List Value) :
      Parts (.before anchor) front (v :: back)

/-! ### The first anchor -/

/-- The first anchor is known by what is in front of it. -/
theorem findIdx?_append_eq_length_iff :
    (front ++ back).findIdx? anchor = some front.length ↔
      (∀ w ∈ front, anchor w = false) ∧ ∃ v behind, back = v :: behind ∧ anchor v = true := by
  induction front with
  | nil =>
    cases back with
    | nil => simp
    | cons v behind => simp [List.findIdx?_cons]
  | cons w front ih =>
    rw [List.cons_append, List.findIdx?_cons]
    split
    · rename_i hw
      refine iff_of_false nofun fun h => ?_
      rw [h.1 w List.mem_cons_self] at hw
      cases hw
    · rename_i hw
      rw [List.length_cons, Option.map_eq_some_iff]
      simp only [Nat.add_right_cancel_iff, exists_eq_right, ih, List.forall_mem_cons,
        Bool.eq_false_iff.2 hw, true_and]

theorem position?_eq_none_iff : placement.position? rest = none ↔
    ∃ anchor, placement.anchor? = some anchor ∧ ∀ v ∈ rest, anchor v = false := by
  cases placement <;>
    simp [position?, anchor?, List.findIdx?_eq_none_iff]

theorem position?_le {pos : Nat} (h : placement.position? rest = some pos) : pos ≤ rest.length := by
  cases placement with
  | start =>
    obtain rfl := Option.some.inj h
    exact Nat.zero_le _
  | finish => exact Nat.le_of_eq (Option.some.inj h).symm
  | after anchor =>
    obtain ⟨i, hi, rfl⟩ := Option.map_eq_some_iff.1 h
    exact (List.findIdx?_eq_some_iff_getElem.1 hi).1
  | before anchor => exact Nat.le_of_lt (List.findIdx?_eq_some_iff_getElem.1 h).1

/-- **The position of a block is where the others part for it.** -/
theorem parts_iff : placement.Parts front back ↔
    placement.position? (front ++ back) = some front.length := by
  constructor
  · intro h
    cases h with
    | start => rfl
    | finish => rw [position?, List.append_nil]
    | @after anchor front v hfront hv =>
      -- the front is one longer than what is in front of the anchor
      have hfirst := findIdx?_append_eq_length_iff.2 ⟨hfront, v, back, rfl, hv⟩
      rw [position?, List.append_assoc, List.singleton_append, hfirst, List.length_append]
      rfl
    | before hfront hv => exact findIdx?_append_eq_length_iff.2 ⟨hfront, _, _, rfl, hv⟩
  · intro h
    cases placement with
    | start =>
      rw [List.eq_nil_of_length_eq_zero (Option.some.inj h).symm]
      exact .start back
    | finish =>
      have hlength := Option.some.inj h
      rw [List.length_append] at hlength
      rw [List.eq_nil_of_length_eq_zero (Nat.add_left_cancel hlength)]
      exact .finish front
    | after anchor =>
      obtain ⟨i, hi, hlength⟩ := Option.map_eq_some_iff.1 h
      -- the front has a last element, which is then the first anchor
      obtain ⟨others, v, rfl⟩ := (List.eq_nil_or_concat' front).resolve_left fun hnil => by
        rw [hnil] at hlength
        cases hlength
      rw [List.length_append] at hlength
      obtain rfl : i = others.length := Nat.add_right_cancel hlength
      rw [List.append_assoc] at hi
      obtain ⟨hfront, w, behind, hcons, hw⟩ := findIdx?_append_eq_length_iff.1 hi
      obtain rfl := (List.cons.inj hcons).1
      exact .after hfront hw back
    | before anchor =>
      obtain ⟨hfront, v, behind, rfl, hv⟩ := findIdx?_append_eq_length_iff.1 h
      exact .before hfront hv behind

end Placement

/-! ### Moves -/

section Moves

variable {items moved front back : List Value} {test : Value → Bool} {placement : Placement}
  {n : Nat}

/-- The block is put where the others part. -/
theorem moveWhere_of_parts (hsome : ∃ v ∈ items, test v = true)
    (hrest : front ++ back = items.filter fun v => !test v) (hparts : placement.Parts front back) :
    moveWhere items test placement =
      .moved (front ++ (items.filter test ++ back)) (items.countP test) := by
  have hne : ¬(items.filter test).isEmpty = true := by
    simpa [List.isEmpty_iff, List.filter_eq_nil_iff] using hsome
  simp only [moveWhere, if_neg hne, ← hrest, Placement.parts_iff.1 hparts, List.take_left,
    List.drop_left, List.countP_eq_length_filter]

/-- The three ways in which a move ends. -/
theorem moveWhere_cases (items : List Value) (test : Value → Bool) (placement : Placement) :
    ((∀ v ∈ items, test v = false) ∧ moveWhere items test placement = .noMatches) ∨
    ((∃ v ∈ items, test v = true) ∧ placement.position? (items.filter fun v => !test v) = none ∧
      moveWhere items test placement = .anchorNotFound) ∨
    ((∃ v ∈ items, test v = true) ∧ ∃ front back, front ++ back = items.filter (fun v => !test v) ∧
      placement.Parts front back ∧ moveWhere items test placement =
        .moved (front ++ (items.filter test ++ back)) (items.countP test)) := by
  by_cases hnone : (items.filter test).isEmpty = true
  · have hall : ∀ v ∈ items, test v = false := by
      simpa only [List.isEmpty_iff, List.filter_eq_nil_iff, Bool.not_eq_true] using hnone
    exact .inl ⟨hall, if_pos hnone⟩
  · have hsome : ∃ v ∈ items, test v = true := by
      simpa [List.isEmpty_iff, List.filter_eq_nil_iff] using hnone
    rcases hpos : placement.position? (items.filter fun v => !test v) with - | pos
    · refine .inr (.inl ⟨hsome, rfl, ?_⟩)
      simp only [moveWhere, hpos, if_neg hnone]
    · obtain ⟨front, back, hrest, hlength⟩ : ∃ front back,
          front ++ back = items.filter (fun v => !test v) ∧ front.length = pos :=
        ⟨_, _, List.take_append_drop pos _, List.length_take_of_le (Placement.position?_le hpos)⟩
      rw [← hrest, ← hlength, ← Placement.parts_iff] at hpos
      exact .inr (.inr ⟨hsome, front, back, hrest, hpos, moveWhere_of_parts hsome hrest hpos⟩)

theorem not_all_of_exists (h : ∃ v ∈ items, test v = true) : ¬∀ v ∈ items, test v = false := by
  obtain ⟨v, hv, htrue⟩ := h
  exact fun hall => Bool.false_ne_true ((hall v hv).symm.trans htrue)

/-- Nothing is moved where no element passes the test. -/
theorem moveWhere_eq_noMatches_iff :
    moveWhere items test placement = .noMatches ↔ ∀ v ∈ items, test v = false := by
  rcases moveWhere_cases items test placement with ⟨hall, h⟩ | ⟨hsome, -, h⟩ |
    ⟨hsome, _, _, -, -, h⟩
  · exact iff_of_true h hall
  · exact iff_of_false (h ▸ BlockMove.noConfusion) (not_all_of_exists hsome)
  · exact iff_of_false (h ▸ BlockMove.noConfusion) (not_all_of_exists hsome)

/-- A move lacks its anchor where some element passes the test, and none of the others is the
anchor. -/
theorem moveWhere_eq_anchorNotFound_iff :
    moveWhere items test placement = .anchorNotFound ↔ (∃ v ∈ items, test v = true) ∧
      ∃ anchor, placement.anchor? = some anchor ∧
        ∀ v ∈ items, test v = false → anchor v = false := by
  have hnone : placement.position? (items.filter fun v => !test v) = none ↔
      ∃ anchor, placement.anchor? = some anchor ∧
        ∀ v ∈ items, test v = false → anchor v = false := by
    rw [Placement.position?_eq_none_iff]
    simp only [List.mem_filter, Bool.not_eq_true', and_imp]
  rw [← hnone]
  rcases moveWhere_cases items test placement with ⟨hall, h⟩ | ⟨hsome, hpos, h⟩ |
    ⟨-, front, back, hrest, hparts, h⟩
  · exact iff_of_false (h ▸ BlockMove.noConfusion) fun hsome => not_all_of_exists hsome.1 hall
  · exact iff_of_true h ⟨hsome, hpos⟩
  · have hpos := Placement.parts_iff.1 hparts
    rw [hrest] at hpos
    exact iff_of_false (h ▸ BlockMove.noConfusion)
      fun hmissing => Option.some_ne_none _ (hpos.symm.trans hmissing.2)

/-- **A move puts the elements that pass the test between the others**, which part for them as
the placement says, and counts them. -/
theorem moveWhere_eq_moved_iff :
    moveWhere items test placement = .moved moved n ↔
      (∃ v ∈ items, test v = true) ∧ n = items.countP test ∧
        ∃ front back, moved = front ++ items.filter test ++ back ∧
          front ++ back = items.filter (fun v => !test v) ∧ placement.Parts front back := by
  constructor
  · intro hmoved
    rcases moveWhere_cases items test placement with ⟨-, h⟩ | ⟨-, -, h⟩ |
      ⟨hsome, front, back, hrest, hparts, h⟩
    · cases h.symm.trans hmoved
    · cases h.symm.trans hmoved
    · obtain ⟨rfl, rfl⟩ := BlockMove.moved.inj (h.symm.trans hmoved)
      exact ⟨hsome, rfl, front, back, (List.append_assoc _ _ _).symm, hrest, hparts⟩
  · rintro ⟨hsome, rfl, front, back, rfl, hrest, hparts⟩
    rw [moveWhere_of_parts hsome hrest hparts, List.append_assoc]

theorem moveWhere_perm (h : moveWhere items test placement = .moved moved n) :
    moved.Perm items := by
  obtain ⟨-, -, front, back, rfl, hrest, -⟩ := moveWhere_eq_moved_iff.1 h
  -- the block is taken back in front of the others
  rw [List.append_assoc]
  refine (List.perm_append_comm_assoc _ _ _).trans ?_
  rw [hrest]
  exact List.filter_append_perm test items

/-- The elements that pass the test are the block, and the others are what they were. -/
theorem filter_block {block : List Value} (hblock : ∀ v ∈ block, test v = true)
    (hothers : ∀ v ∈ front ++ back, test v = false) :
    (front ++ block ++ back).filter test = block ∧
      (front ++ block ++ back).filter (fun v => !test v) = front ++ back := by
  obtain ⟨hfront, hback⟩ := List.forall_mem_append.1 hothers
  have hnone : ∀ l : List Value, (∀ v ∈ l, test v = false) → l.filter test = [] := fun l hl =>
    List.filter_eq_nil_iff.2 fun v hv => by rw [hl v hv]; exact Bool.false_ne_true
  have hall : ∀ l : List Value, (∀ v ∈ l, test v = false) → l.filter (fun v => !test v) = l :=
    fun l hl => List.filter_eq_self.2 fun v hv => by rw [hl v hv]; rfl
  have hgone : block.filter (fun v => !test v) = [] :=
    List.filter_eq_nil_iff.2 fun v hv => by rw [hblock v hv]; exact Bool.false_ne_true
  simp only [List.filter_append]
  constructor
  · rw [hnone front hfront, hnone back hback, List.filter_eq_self.2 hblock, List.nil_append,
      List.append_nil]
  · rw [hall front hfront, hall back hback, hgone, List.append_nil]

/-- A block that was moved to a place stays there when it is moved there again. -/
theorem moveWhere_again (h : moveWhere items test placement = .moved moved n) :
    moveWhere moved test placement = .moved moved n := by
  have hperm := moveWhere_perm h
  obtain ⟨⟨v, hv, htrue⟩, rfl, front, back, rfl, hrest, hparts⟩ := moveWhere_eq_moved_iff.1 h
  have hothers : ∀ w ∈ front ++ back, test w = false := by
    intro w hw
    rw [hrest] at hw
    simpa using (List.mem_filter.1 hw).2
  obtain ⟨hblock, hrest'⟩ := filter_block (fun w hw => (List.mem_filter.1 hw).2) hothers
  -- so the others part for the same block where they did before
  refine moveWhere_eq_moved_iff.2 ⟨⟨v, hperm.mem_iff.2 hv, htrue⟩, (hperm.countP_eq test).symm,
    front, back, ?_, hrest'.symm, hparts⟩
  rw [hblock]

end Moves

/-- The elements after a move, which are as they were where nothing was moved. -/
def BlockMove.after (items : List Value) : BlockMove → List Value
  | moved items' _ => items'
  | noMatches | anchorNotFound => items

/-- What the verb leaves is what the move leaves. -/
theorem after_moveMatching (clock : Clock) (target : Path) (test : Value → Bool) (d : Destination)
    (items : List Value) : (Run.moveMatching clock target test d items).after =
      (moveWhere items test (Run.placement clock d)).after items := by
  simp only [Run.moveMatching]
  cases moveWhere items test (Run.placement clock d) with
  | moved items' n =>
    dsimp only
    split <;> rfl
  | noMatches => rfl
  | anchorNotFound => rfl

/-- **What a move of matching elements does**, for every test and every placement: when it moves
nothing and the array stays as it is, what the array is otherwise, and that it is the same when
the move is made again.  The verb leaves the array that the move leaves. -/
theorem moveWhere_spec (items : List Value) (test : Value → Bool) (placement : Placement) :
    (moveWhere items test placement = .noMatches ↔ ∀ v ∈ items, test v = false) ∧
    (moveWhere items test placement = .anchorNotFound ↔ (∃ v ∈ items, test v = true) ∧
      ∃ anchor, placement.anchor? = some anchor ∧
        ∀ v ∈ items, test v = false → anchor v = false) ∧
    (∀ moved n, moveWhere items test placement = .moved moved n ↔
      (∃ v ∈ items, test v = true) ∧ n = items.countP test ∧
        ∃ front back, moved = front ++ items.filter test ++ back ∧
          front ++ back = items.filter (fun v => !test v) ∧ placement.Parts front back) ∧
    moveWhere ((moveWhere items test placement).after items) test placement =
      moveWhere items test placement ∧
    ∀ clock target d, Run.placement clock d = placement →
      (Run.moveMatching clock target test d items).after =
        (moveWhere items test placement).after items := by
  refine ⟨moveWhere_eq_noMatches_iff, moveWhere_eq_anchorNotFound_iff,
    fun _ _ => moveWhere_eq_moved_iff, ?_, ?_⟩
  · cases h : moveWhere items test placement with
    | moved moved n => exact moveWhere_again h
    | noMatches => exact h
    | anchorNotFound => exact h
  · rintro clock target d rfl
    exact after_moveMatching clock target test d items

end Elements

end MetadataRules
