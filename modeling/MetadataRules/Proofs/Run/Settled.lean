/-
MetadataRules/Proofs/Run/Settled.lean

Verbs that have nothing to do a second time.

What an effect leaves is `Effect.Settled` when the same effect leaves it alone
and reports no change.  A verb that sorts, removes, moves or drops settles the
elements by what it does to them (`Elements.sort_sort` and the like).

A write of one field to matching elements settles them too
(`Run.settled_updateFrom`), although it may change which elements match: an
element that was written and still matches is given the value that it has, and
the first element that refuses the write is as it was and refuses it again.
-/
import MetadataRules.Proofs.Block
import MetadataRules.Proofs.Run.Silence

namespace MetadataRules

/-- The verbs of a collection that have nothing to do a second time.  Insertions add another
element, and a move by position moves what has come to stand there. -/
def Verb.isRepeatable : Verb → Bool
  | removeAll _ | removeMatching | sort _ _ | moveMatching _ | deduplicate | merge _ _ => true
  | update assignments => assignments.length == 1
  | _ => false

namespace Effect

variable {α : Type} {f : α → Effect α} {a : α}

/-- The effect leaves a value as it is and reports no change. -/
def Settled (f : α → Effect α) (a : α) : Prop :=
  (f a).after = a ∧ (f a).changes = []

/-- An effect that did nothing does nothing again. -/
theorem settled_of_idle (hafter : (f a).after = a) (hchanges : (f a).changes = []) :
    Settled f (f a).after := by
  rw [hafter]
  exact ⟨hafter, hchanges⟩

/-- A whole effect settles what it was given if it settles all that it may leave instead. -/
theorem Whole.settled {rest : α → Prop} (h : Whole a (fun b => b = a ∨ rest b) rest (f a))
    (hrest : ∀ b, rest b → Settled f b) : Settled f (f a).after := by
  by_cases hchanges : (f a).changes = []
  · rcases h.of_changes hchanges with hafter | hafter | hrested
    · exact settled_of_idle hafter hchanges
    · exact settled_of_idle hafter hchanges
    · exact hrest _ hrested
  · exact hrest _ (h.told_of_changes hchanges)

end Effect

namespace Run

open Effect

variable {target : Path} {items : List Value}

/-! ### One field of matching elements -/

section Update

variable {test : Value → Bool} {values : List (Path × Value)} {item : Value}
  {rest : List Value} {index : Nat}

theorem updateFrom_of_not_test (h : test item = false) :
    updateFrom target test values index (item :: rest) =
      (updateFrom target test values (index + 1) rest).lift (item :: ·) := by
  rw [updateFrom, h]
  exact if_neg Bool.false_ne_true

theorem updateFrom_of_refused {p : Path} {r : Refusal} (htest : test item = true)
    (h : (assignAll item values).refused = some (p, r)) :
    updateFrom target test values index (item :: rest) =
      .failed ((assignAll item values).value :: rest) (.elementWrite target index p r) := by
  rw [updateFrom, if_pos htest]
  dsimp only
  rw [h]

theorem updateFrom_of_written (htest : test item = true)
    (h : (assignAll item values).refused = none) :
    (updateFrom target test values index (item :: rest)).after =
        (assignAll item values).value ::
          (updateFrom target test values (index + 1) rest).after ∧
      (updateFrom target test values index (item :: rest)).changes =
        (if (assignAll item values).value.equal item then []
          else [updatedLine target index values]) ++
            (updateFrom target test values (index + 1) rest).changes := by
  rw [updateFrom, if_pos htest]
  dsimp only
  rw [h]
  exact ⟨rfl, rfl⟩

variable {p : Path} {new : Value}

/-- One field is written, or the element is as it was. -/
theorem assignAll_singleton_cases (hp : .current ∉ p.steps) (item new : Value) :
    ((assignAll item [(p, new)]).refused = none ∧
        p.get? (assignAll item [(p, new)]).value = some new) ∨
      ∃ r, assignAll item [(p, new)] = ⟨item, some (p, r)⟩ := by
  simp only [assignAll]
  rcases hanswer : (p.set item new).answer with r | x
  · rw [Path.value_set_of_error hp hanswer]
    exact .inr ⟨r, rfl⟩
  · exact .inl ⟨rfl, Steps.get?_set_self hanswer⟩

theorem assignAll_eq_self (hp : .current ∉ p.steps) (h : p.get? item = some new) :
    assignAll item [(p, new)] = ⟨item, none⟩ := by
  simp only [assignAll, Path.set, Steps.set_eq_self hp h]

/-- **A write of one field leaves nothing to write**, whether every matching element took it
or one refused it. -/
theorem settled_updateFrom (hp : .current ∉ p.steps) (index : Nat)
    (hequal : ∀ v ∈ (updateFrom target test [(p, new)] index items).after, v.equal v = true)
    (second : Nat) :
    Settled (updateFrom target test [(p, new)] second)
      (updateFrom target test [(p, new)] index items).after := by
  induction items generalizing index second with
  | nil => exact ⟨rfl, rfl⟩
  | cons item rest ih =>
    cases htest : test item with
    | false =>
      rw [updateFrom_of_not_test htest] at hequal ⊢
      obtain ⟨-, hbelow⟩ := List.forall_mem_cons.1 hequal
      obtain ⟨hafter, hchanges⟩ := ih (index + 1) hbelow (second + 1)
      rw [Effect.lift, Settled, updateFrom_of_not_test htest]
      exact ⟨congrArg (item :: ·) hafter, hchanges⟩
    | true =>
      rcases assignAll_singleton_cases hp item new with ⟨hwritten, hget⟩ | ⟨r, hrefused⟩
      · rw [(updateFrom_of_written htest hwritten).1] at hequal ⊢
        generalize (assignAll item [(p, new)]).value = written at hget hequal ⊢
        obtain ⟨hself, hbelow⟩ := List.forall_mem_cons.1 hequal
        obtain ⟨hafter, hchanges⟩ := ih (index + 1) hbelow (second + 1)
        -- the element may no longer match; if it does, it is given what it has
        cases hagain : test written with
        | false =>
          rw [Settled, updateFrom_of_not_test hagain]
          exact ⟨congrArg (written :: ·) hafter, hchanges⟩
        | true =>
          have hassign := assignAll_eq_self hp hget
          obtain ⟨hafter', hchanges'⟩ := updateFrom_of_written hagain (congrArg (·.refused) hassign)
          refine ⟨hafter'.trans ?_, hchanges'.trans ?_⟩
          · rw [hassign, hafter]
          · rw [hassign, hself, hchanges]
            rfl
      · have hagain : ∀ index, updateFrom target test [(p, new)] index (item :: rest) =
            .failed (item :: rest) (.elementWrite target index p r) := by
          intro index
          rw [updateFrom_of_refused htest (congrArg Assigned.refused hrefused), hrefused]
        rw [hagain index]
        show Settled _ (item :: rest)
        rw [Settled, hagain second]
        exact ⟨rfl, rfl⟩

theorem settled_update (hp : .current ∉ p.steps)
    (hequal : ∀ v ∈ (update target test [(p, new)] items).after, v.equal v = true) :
    Settled (update target test [(p, new)]) (update target test [(p, new)] items).after := by
  have hnone : ∀ items : List Value, items.any test = false →
      Settled (update target test [(p, new)]) items := by
    intro items h
    rw [Settled, update, h]
    exact ⟨rfl, rfl⟩
  cases hany : items.any test with
  | false =>
    have hidle := hnone items hany
    exact settled_of_idle hidle.1 hidle.2
  | true =>
    have hupdate : update target test [(p, new)] items =
        updateFrom target test [(p, new)] 0 items := by
      rw [update, if_pos hany]
    rw [hupdate] at hequal ⊢
    have hsettled := settled_updateFrom hp 0 hequal 0
    generalize (updateFrom target test [(p, new)] 0 items).after = after at hsettled ⊢
    cases hagain : after.any test with
    | false => exact hnone after hagain
    | true =>
      rw [Settled, update, if_pos hagain]
      exact hsettled

end Update

/-! ### Verbs -/

variable {clock : Clock} {filter : Option Condition}

/-- Dropping elements settles the others, where it drops none of those that it leaves. -/
theorem settled_of_shrink {f : List Value → Effect (List Value)} {kept : List Value → List Value}
    (hkept : ∀ items, kept (kept items) = kept items)
    (hf : ∀ items, ∃ warning line, f items =
      if items.length - (kept items).length = 0 then .warned items warning
      else .changed (kept items) line) (items : List Value) : Settled f (f items).after := by
  have hnone : ∀ items, items.length - (kept items).length = 0 → Settled f items := by
    intro items h
    obtain ⟨warning, line, heq⟩ := hf items
    rw [Settled, heq, if_pos h]
    exact ⟨rfl, rfl⟩
  obtain ⟨warning, line, heq⟩ := hf items
  rw [heq]
  split
  · rename_i h
    exact hnone items h
  · refine hnone (kept items) ?_
    rw [hkept, Nat.sub_self]

theorem settled_sort {by_ : Option Path} {direction : SortDirection}
    (hequal : ∀ v ∈ (sort target by_ direction items).after, v.equal v = true) :
    Settled (sort target by_ direction) (sort target by_ direction items).after := by
  have hafter : (sort target by_ direction items).after = Elements.sort items by_ direction := by
    simp only [sort]
    split
    · rfl
    · split <;> rfl
  rw [hafter] at hequal ⊢
  simp only [Settled, sort, Elements.sort_sort, equalItems_refl hequal, if_true]
  exact ⟨rfl, rfl⟩

theorem settled_moveMatching {test : Value → Bool} {d : Destination}
    (hequal : ∀ v ∈ (moveMatching clock target test d items).after, v.equal v = true) :
    Settled (moveMatching clock target test d) (moveMatching clock target test d items).after := by
  rcases hmove : Elements.moveWhere items test (placement clock d) with ⟨moved, n⟩ | - | -
  · have hafter : (moveMatching clock target test d items).after = moved := by
      simp only [moveMatching, hmove]
      split <;> rfl
    rw [hafter] at hequal ⊢
    simp only [Settled, moveMatching, Elements.moveWhere_again hmove, equalItems_refl hequal,
      if_true]
    exact ⟨rfl, rfl⟩
  · refine settled_of_idle ?_ ?_ <;> rw [moveMatching, hmove] <;> rfl
  · refine settled_of_idle ?_ ?_ <;> rw [moveMatching, hmove] <;> rfl

/-- What a verb leaves is settled, where the elements that it leaves equal themselves. -/
theorem settled_editElements {verb : Verb} (hverb : verb.isRepeatable = true)
    (hfields : ∀ p ∈ verb.fields, .current ∉ p.steps)
    (hequal : ∀ v ∈ (editElements clock target filter verb items).after, v.equal v = true) :
    Settled (editElements clock target filter verb)
      (editElements clock target filter verb items).after := by
  cases verb with
  | removeAll l =>
    exact settled_of_shrink (fun _ => Elements.removeAll_removeAll) (fun _ => ⟨_, _, rfl⟩) items
  | removeMatching =>
    rcases filter with - | c
    · exact ⟨rfl, rfl⟩
    · exact settled_of_shrink (fun _ => Elements.removeWhere_removeWhere)
        (fun _ => ⟨_, _, rfl⟩) items
  | sort by_ direction => exact settled_sort hequal
  | moveMatching d =>
    rcases filter with - | c
    · exact ⟨rfl, rfl⟩
    · exact settled_moveMatching hequal
  | deduplicate =>
    have hafter : (editElements clock target filter .deduplicate items).after =
        Elements.deduplicate items := by
      simp only [editElements]
      split <;> rfl
    rw [hafter]
    simp only [Settled, editElements, Elements.deduplicate_deduplicate, Nat.sub_self, if_true]
    exact ⟨rfl, rfl⟩
  | update assignments =>
    rcases filter with - | c
    · exact ⟨rfl, rfl⟩
    · obtain ⟨⟨p, l⟩, rfl⟩ := List.length_eq_one_iff.1 (beq_iff_eq.1 hverb)
      exact settled_update (hfields p List.mem_cons_self) hequal
  | merge l deep => exact ⟨rfl, rfl⟩
  | _ => cases hverb

end Run

end MetadataRules
