/-
MetadataRules/Proofs/Sort.lean

A sort is stable.

The elements of one key are a part of the array, in the order of the array
(`Elements.withKey`).  A sort leaves each of these parts as it is, in both
directions (`Elements.withKey_sort`).  Elements that are in the order of their
keys have only one arrangement with given parts (`eq_of_classes`): the first
element is the first one of its part.  So what a sort makes is told by the order
that it brings about and by the parts that it leaves (`Elements.sort_eq_iff`).
-/
import MetadataRules.Proofs.Elements

namespace MetadataRules

/-! ### Classes of equal elements -/

section Classes

variable {α : Type} {cmp : α → α → Ordering} [Std.TransCmp cmp] {as bs : List α}

theorem mem_of_classes
    (h : ∀ c, as.filter (fun v => cmp v c == .eq) = bs.filter fun v => cmp v c == .eq) {v : α}
    (hv : v ∈ as) : v ∈ bs := by
  have hclass : v ∈ as.filter fun w => cmp w v == .eq :=
    List.mem_filter.2 ⟨hv, beq_iff_eq.2 Std.ReflCmp.compare_self⟩
  rw [h v] at hclass
  exact (List.mem_filter.1 hclass).1

/-- Lists that are in order are the same if, for each element, those that are equal to it are. -/
theorem eq_of_classes (has : as.Pairwise fun v w => (cmp v w).isLE = true)
    (hbs : bs.Pairwise fun v w => (cmp v w).isLE = true)
    (h : ∀ c, as.filter (fun v => cmp v c == .eq) = bs.filter fun v => cmp v c == .eq) :
    as = bs := by
  induction as generalizing bs with
  | nil =>
    have hnil : ∀ v, v ∉ bs := fun v hv =>
      List.not_mem_nil (mem_of_classes (fun c => (h c).symm) hv)
    exact (List.eq_nil_iff_forall_not_mem.2 hnil).symm
  | cons a as ih =>
    have ha : a ∈ bs := mem_of_classes h List.mem_cons_self
    cases bs with
    | nil => cases ha
    | cons b bs =>
      have hb : b ∈ a :: as := mem_of_classes (fun c => (h c).symm) List.mem_cons_self
      obtain ⟨hfirst, hrest⟩ := List.pairwise_cons.1 has
      obtain ⟨hfirst', hrest'⟩ := List.pairwise_cons.1 hbs
      -- each of the two first elements stands in the other list too, so neither is the lesser
      have hab : cmp a b = .eq := by
        rcases List.mem_cons.1 ha with rfl | ha
        · exact Std.ReflCmp.compare_self
        · rcases List.mem_cons.1 hb with rfl | hb
          · exact Std.ReflCmp.compare_self
          · exact Std.OrientedCmp.isLE_antisymm (hfirst b hb) (hfirst' a ha)
      have hclass := h b
      simp only [List.filter_cons, hab, Std.ReflCmp.compare_self, BEq.rfl, if_true] at hclass
      obtain rfl := (List.cons.inj hclass).1
      refine congrArg _ (ih hrest hrest' fun c => ?_)
      have hc := h c
      simp only [List.filter_cons] at hc
      split at hc
      · exact (List.cons.inj hc).2
      · exact hc

end Classes

namespace Elements

variable {by_ : Option Path} {direction : SortDirection} {items sorted : List Value}

/-- The elements whose key is equal to the given one in the order of keys. -/
def withKey (by_ : Option Path) (key : Option Value) (items : List Value) : List Value :=
  items.filter fun v => Value.sortOrderOption (sortKey by_ v) key == .eq

/-! ### What a sort keeps -/

/-- Elements of one key are in order wherever they stand. -/
theorem pairwise_withKey (key : Option Value) : (withKey by_ key items).Pairwise
    fun v w => (elementOrder by_ direction v w).isLE = true := by
  refine List.pairwise_filter.2 (List.pairwise_of_forall fun v w hv hw => ?_)
  have hequal : Value.sortOrderOption (sortKey by_ v) (sortKey by_ w) = .eq :=
    (Std.TransCmp.congr_right (Std.OrientedCmp.eq_symm (beq_iff_eq.1 hw))).symm.trans
      (beq_iff_eq.1 hv)
  rw [elementOrder, keyOrder_eq_iff.2 hequal]
  rfl

/-- **Elements of one key stay in their order**, whatever the direction. -/
theorem withKey_sort (key : Option Value) :
    withKey by_ key (sort items by_ direction) = withKey by_ key items := by
  -- what is in order already is a part of what is sorted, and no part of it is longer
  have hpart : (withKey by_ key items).Sublist (sort items by_ direction) := by
    rw [sort_eq_mergeSort]
    exact List.sublist_mergeSort (fun _ _ _ => Std.TransCmp.isLE_trans) isLE_or_isLE
      (pairwise_withKey key) List.filter_sublist
  have hsub := hpart.filter fun v => Value.sortOrderOption (sortKey by_ v) key == .eq
  rw [withKey, List.filter_filter] at hsub
  simp only [Bool.and_self] at hsub
  exact (hsub.eq_of_length (sort_perm.filter _).length_eq.symm).symm

/-! ### Stable sorting -/

/-- The same elements with keys that do not decrease, or do not increase when descending, in
which the elements of one key stand as they did. -/
structure IsStablySorted (by_ : Option Path) (direction : SortDirection)
    (items sorted : List Value) : Prop where
  perm : sorted.Perm items
  ordered : (sorted.map (sortKey by_)).Pairwise fun a b => (keyOrder direction a b).isLE = true
  stable : ∀ key, withKey by_ key sorted = withKey by_ key items

theorem isStablySorted_sort (items : List Value) (by_ : Option Path) (direction : SortDirection) :
    IsStablySorted by_ direction items (sort items by_ direction) where
  perm := sort_perm
  ordered := List.pairwise_map.2 pairwise_sort
  stable := withKey_sort

/-- Elements can be sorted stably in one way only. -/
theorem IsStablySorted.eq_sort (h : IsStablySorted by_ direction items sorted) :
    sorted = sort items by_ direction := by
  have hordered : sorted.Pairwise fun v w => (elementOrder by_ direction v w).isLE = true :=
    List.pairwise_map.1 h.ordered
  refine eq_of_classes hordered pairwise_sort fun v => ?_
  -- what is equal to an element in their order is what has its key
  simp only [elementOrder, keyOrder_beq_eq]
  exact (h.stable (sortKey by_ v)).trans (withKey_sort _).symm

/-- **A sort arranges the elements by their keys and keeps the order of those with one key.**  That
tells the result: no other list of the same elements has both.  What is sorted already stays
as it is. -/
theorem sort_eq_iff (items sorted : List Value) (by_ : Option Path) (direction : SortDirection) :
    (sort items by_ direction = sorted ↔ IsStablySorted by_ direction items sorted) ∧
      sort (sort items by_ direction) by_ direction = sort items by_ direction := by
  refine ⟨⟨?_, fun h => h.eq_sort.symm⟩, sort_sort⟩
  rintro rfl
  exact isStablySorted_sort items by_ direction

/-- From the greatest key down: two elements of one key stay in their order, and the one without
a key is last. -/
example :
    let item (name : String) (fields : Fields Value) : Value :=
      .object (("name", .string name) :: fields)
    let a := item "a" [("rank", .boolean false)]
    let b := item "b" []
    let c := item "c" [("rank", .boolean true)]
    let d := item "d" [("rank", .boolean false)]
    sort [a, b, c, d] (some ⟨[.key "rank"]⟩) .descending = [c, a, d, b] := by
  cbv

end Elements

end MetadataRules
