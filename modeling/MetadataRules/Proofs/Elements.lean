/-
MetadataRules/Proofs/Elements.lean

What edits of an array keep, and what they do when they are made twice.

Sorting and moving only rearrange the elements, and inserting adds one to them
(`sort_perm`, `moveIndex_perm`, `insertAt_perm`).

Sorting, dropping duplicates and dropping the elements that pass a test have no
effect on an array that comes from the same edit.  For the sort this rests on the
order of values being a total preorder; the others only ask each element again
what it was asked before.
-/
import Mathlib.Data.List.InsertIdx
import Mathlib.Data.List.Perm.Basic
import MetadataRules.Proofs.Value.Order

namespace MetadataRules

namespace Elements

variable {items : List Value} {test : Value → Bool}

variable {by_ : Option Path} {direction : SortDirection}

/-! ### The elements that are kept -/

theorem sort_perm : (sort items by_ direction).Perm items := by
  rw [sort_eq_mergeSort]
  exact List.mergeSort_perm _ _

theorem insertPosition_le (length : Nat) (index : Int) : insertPosition length index ≤ length := by
  unfold insertPosition
  split <;> omega

theorem insertAt_perm (v : Value) (index : Int) : (insertAt items v index).Perm (v :: items) :=
  List.perm_insertIdx _ _ (insertPosition_le _ _)

/-- A move by index takes an element out and puts it back, where both indices name positions. -/
theorem moveIndex_eq_ok_iff {source target : Int} {m : Moved} :
    moveIndex items source target = .ok m ↔
      position? source items.length = some m.source ∧
        position? target items.length = some m.target ∧
          ∃ v, items[m.source]? = some v ∧
            m.items = (items.eraseIdx m.source).insertIdx m.target v := by
  constructor
  · intro h
    unfold moveIndex at h
    rcases hs : position? source items.length with - | s
    · rw [hs] at h
      cases h
    · rcases ht : position? target items.length with - | t
      · rw [hs, ht] at h
        cases h
      · have hget := List.getElem?_eq_getElem (lt_of_position? hs)
        simp only [hs, ht, hget] at h
        obtain rfl := Except.ok.inj h
        exact ⟨rfl, rfl, _, hget, rfl⟩
  · rintro ⟨hs, ht, v, hv, hitems⟩
    simp only [moveIndex, hs, ht, hv, ← hitems]

theorem moveIndex_perm {source target : Int} {m : Moved}
    (h : moveIndex items source target = .ok m) : m.items.Perm items := by
  obtain ⟨hs, ht, v, hv, hitems⟩ := moveIndex_eq_ok_iff.1 h
  obtain ⟨hsource, rfl⟩ := List.getElem?_eq_some_iff.1 hv
  have htarget : m.target < items.length := lt_of_position? ht
  have hlength := List.length_eraseIdx_of_lt hsource
  rw [hitems]
  exact (List.perm_insertIdx _ _ (by omega)).trans (List.getElem_cons_eraseIdx_perm hsource)

/-! ### Sorting -/

/-- Of two elements one may stand before the other. -/
theorem isLE_or_isLE (v w : Value) :
    ((elementOrder by_ direction v w).isLE || (elementOrder by_ direction w v).isLE) = true := by
  have hswap : elementOrder by_ direction w v = (elementOrder by_ direction v w).swap :=
    Std.OrientedCmp.eq_swap
  rw [hswap]
  cases elementOrder by_ direction v w <;> rfl

/-- An element stands before those that it is not greater than. -/
theorem pairwise_sort : (sort items by_ direction).Pairwise
    fun v w => (elementOrder by_ direction v w).isLE = true := by
  rw [sort_eq_mergeSort]
  exact List.pairwise_mergeSort (fun _ _ _ => Std.TransCmp.isLE_trans) isLE_or_isLE items

/-- What is in order stays as it is when it is sorted. -/
theorem sort_of_pairwise
    (h : items.Pairwise fun v w => (elementOrder by_ direction v w).isLE = true) :
    sort items by_ direction = items := by
  rw [sort_eq_mergeSort]
  exact List.mergeSort_of_pairwise h

/-- What is sorted stays as it is when it is sorted again. -/
theorem sort_sort : sort (sort items by_ direction) by_ direction = sort items by_ direction :=
  sort_of_pairwise pairwise_sort

/-! ### Removing -/

theorem removeWhere_removeWhere :
    removeWhere (removeWhere items test) test = removeWhere items test := by
  unfold removeWhere
  rw [List.filter_filter]
  simp only [Bool.and_self]

theorem removeAll_removeAll {targets : List Value} :
    removeAll (removeAll items targets) targets = removeAll items targets :=
  removeWhere_removeWhere

theorem dedupAfter_sublist {kept : List Value} : (dedupAfter kept items).Sublist items := by
  induction items generalizing kept with
  | nil => exact .slnil
  | cons v rest ih =>
    rw [dedupAfter]
    split
    · exact ih.cons v
    · exact ih.cons_cons v

theorem dedupAfter_dedupAfter {kept : List Value} :
    dedupAfter kept (dedupAfter kept items) = dedupAfter kept items := by
  induction items generalizing kept with
  | nil => rfl
  | cons v rest ih =>
    rw [dedupAfter]
    split
    · exact ih
    · rename_i hv
      rw [dedupAfter, if_neg hv, ih]

theorem deduplicate_deduplicate : deduplicate (deduplicate items) = deduplicate items :=
  dedupAfter_dedupAfter

end Elements

end MetadataRules
