/-
MetadataRules/Proofs/Value/Order.lean

The order of values is a total preorder.

Three orderings `Chain` when they can be those of `a` to `b`, of `b` to `c` and
of `a` to `c`.  Chains can be put one after the other by `Ordering.then`
(`Chain.lex`), and that is how the order of values is made: by kind first, and
then, for arrays, element by element.  So the induction on the first of three
values (`Value.chain_sortOrder`) needs no case for values of different kinds.

A sort compares elements by their keys, the other way round when descending
(`Elements.elementOrder`).  That is a total preorder too, whatever the path is
that leads to the keys (`Elements.consistent_orders`).
-/
import Mathlib.Order.Basic
import MetadataRules.Elements
import MetadataRules.Proofs.Value.Parts

namespace MetadataRules

/-! ### Three orderings in a chain -/

/-- The orderings of `a` to `b`, of `b` to `c` and of `a` to `c`: an equality changes nothing,
and two steps in one direction are a step in that direction. -/
structure Chain (ab bc ac : Ordering) : Prop where
  left : ab = .eq → ac = bc
  right : bc = .eq → ac = ab
  both : ab = bc → ac = ab

namespace Chain

variable {ab bc ac ab' bc' ac' : Ordering}

theorem of_cmp {α : Type} {cmp : α → α → Ordering} [Std.TransCmp cmp] (a b c : α) :
    Chain (cmp a b) (cmp b c) (cmp a c) where
  left h := Std.TransCmp.congr_left h
  right h := by
    rw [← Std.TransCmp.congr_right h]
  both h := by
    cases hab : cmp a b with
    | lt => exact Std.TransCmp.lt_trans hab (h ▸ hab)
    | eq => exact Std.TransCmp.eq_trans hab (h ▸ hab)
    | gt => exact Std.TransCmp.gt_trans hab (h ▸ hab)

/-- A second order that decides where the first one is equal. -/
theorem lex (h : Chain ab bc ac) (h' : ab = .eq → bc = .eq → Chain ab' bc' ac') :
    Chain (ab.then ab') (bc.then bc') (ac.then ac') := by
  obtain ⟨hleft, hright, hboth⟩ := h
  cases ab <;> cases bc <;> simp_all only [Ordering.then, reduceCtorEq, false_imp_iff, true_imp_iff]
  all_goals constructor <;> simp_all

/-- Not greater twice is not greater. -/
theorem isLE (h : Chain ab bc ac) (hab : ab.isLE = true) (hbc : bc.isLE = true) :
    ac.isLE = true := by
  obtain ⟨hleft, hright, hboth⟩ := h
  cases ab <;> cases bc <;> simp_all

end Chain

namespace Value

/-! ### Values -/

/-- Kinds are compared first. -/
theorem sortOrder_eq_then (a b : Value) :
    sortOrder a b = (compare a.kind.rank b.kind.rank).then (sortOrder a b) := by
  cases a <;> cases b <;> rfl

theorem kind_eq_of_compare {a b : Value} (h : compare a.kind.rank b.kind.rank = .eq) :
    a.kind = b.kind := by
  cases a <;> cases b <;> first | rfl | cases h

/-- Values chain if they do when all are of one kind. -/
theorem chain_of_kind {a b c : Value} (h : b.kind = a.kind → c.kind = a.kind →
    Chain (sortOrder a b) (sortOrder b c) (sortOrder a c)) :
    Chain (sortOrder a b) (sortOrder b c) (sortOrder a c) := by
  rw [sortOrder_eq_then a b, sortOrder_eq_then b c, sortOrder_eq_then a c]
  refine (Chain.of_cmp _ _ _).lex fun hab hbc => ?_
  have hb := kind_eq_of_compare hab
  have hc := kind_eq_of_compare hbc
  exact h hb.symm (hb.trans hc).symm

/-- Elements chain as the first difference does. -/
theorem chain_sortOrderItems {as bs cs : List Value}
    (h : ∀ a ∈ as, ∀ b c, Chain (sortOrder a b) (sortOrder b c) (sortOrder a c)) :
    Chain (sortOrderItems as bs) (sortOrderItems bs cs) (sortOrderItems as cs) := by
  induction as generalizing bs cs with
  | nil => cases bs <;> cases cs <;> constructor <;> simp_all [sortOrderItems]
  | cons a as ih =>
    obtain ⟨ha, has⟩ := List.forall_mem_cons.1 h
    rcases bs with - | ⟨b, bs⟩ <;> rcases cs with - | ⟨c, cs⟩
    case cons.cons => exact (ha b c).lex fun _ _ => ih has
    all_goals constructor <;> simp_all [sortOrderItems]

/-- **The orderings of three values chain.** -/
theorem chain_sortOrder (a b c : Value) :
    Chain (sortOrder a b) (sortOrder b c) (sortOrder a c) := by
  refine chain_of_kind fun hb hc => ?_
  induction a generalizing b c with
  | null =>
    cases b <;> cases hb
    cases c <;> cases hc
    exact ⟨id, id, id⟩
  | boolean x =>
    cases b <;> cases hb
    cases c <;> cases hc
    simp only [sortOrder]
    exact Chain.of_cmp _ _ _
  | number n =>
    cases b <;> cases hb
    cases c <;> cases hc
    simp only [sortOrder, Number.totalOrder]
    exact Chain.of_cmp _ _ _
  | string s =>
    cases b <;> cases hb
    cases c <;> cases hc
    simp only [sortOrder]
    exact Chain.of_cmp _ _ _
  | array items ih =>
    cases b <;> cases hb
    cases c <;> cases hc
    simp only [sortOrder]
    exact chain_sortOrderItems fun v hv b c => chain_of_kind fun hb hc => ih v hv b c hb hc
  | object fields _ =>
    cases b <;> cases hb
    cases c <;> cases hc
    simp only [sortOrder]
    exact Chain.of_cmp _ _ _

/-! ### The other way round -/

theorem swap_sortOrderItems {as bs : List Value}
    (h : ∀ a ∈ as, ∀ b, (sortOrder a b).swap = sortOrder b a) :
    (sortOrderItems as bs).swap = sortOrderItems bs as := by
  induction as generalizing bs with
  | nil => cases bs <;> rfl
  | cons a as ih =>
    obtain ⟨ha, has⟩ := List.forall_mem_cons.1 h
    cases bs with
    | nil => rfl
    | cons b bs => rw [sortOrderItems, Ordering.swap_then, ha b, ih has, sortOrderItems]

theorem swap_sortOrder (a b : Value) : (sortOrder a b).swap = sortOrder b a := by
  induction a generalizing b with
  | null => cases b <;> rfl
  | boolean x =>
    cases b with
    | boolean y =>
      simp only [sortOrder]
      exact Std.OrientedCmp.eq_swap.symm
    | _ => rfl
  | number n =>
    cases b with
    | number m =>
      simp only [sortOrder, Number.totalOrder]
      exact Std.OrientedCmp.eq_swap.symm
    | _ => rfl
  | string s =>
    cases b with
    | string t =>
      simp only [sortOrder]
      exact Std.OrientedCmp.eq_swap.symm
    | _ => rfl
  | array items ih =>
    cases b with
    | array items' =>
      simp only [sortOrder]
      exact swap_sortOrderItems ih
    | _ => rfl
  | object fields _ =>
    cases b with
    | object fields' =>
      simp only [sortOrder]
      exact Std.OrientedCmp.eq_swap.symm
    | _ => rfl

/-! ### Sort keys -/

theorem chain_sortOrderOption (a b c : Option Value) :
    Chain (sortOrderOption a b) (sortOrderOption b c) (sortOrderOption a c) := by
  rcases a with - | a <;> rcases b with - | b <;> rcases c with - | c
  case some.some.some => exact chain_sortOrder a b c
  all_goals constructor <;> simp_all [sortOrderOption]

theorem swap_sortOrderOption (a b : Option Value) :
    (sortOrderOption a b).swap = sortOrderOption b a := by
  rcases a with - | a <;> rcases b with - | b
  case some.some => exact swap_sortOrder a b
  all_goals rfl

/-! ### Total preorders -/

instance : Std.TransCmp sortOrder where
  eq_swap := (swap_sortOrder _ _).symm
  isLE_trans := (chain_sortOrder _ _ _).isLE

instance : Std.TransCmp sortOrderOption where
  eq_swap := (swap_sortOrderOption _ _).symm
  isLE_trans := (chain_sortOrderOption _ _ _).isLE

end Value

/-- A comparison that orders everything without contradicting itself: it is reversed when its
sides are, not greater twice is not greater, and what compares equal compares alike with every
third. -/
structure Consistent {α : Type} (cmp : α → α → Ordering) : Prop where
  swap : ∀ a b, cmp b a = (cmp a b).swap
  trans : ∀ a b c, (cmp a b).isLE = true → (cmp b c).isLE = true → (cmp a c).isLE = true
  congr : ∀ a b c, cmp a b = .eq → cmp a c = cmp b c ∧ cmp c a = cmp c b

theorem consistent {α : Type} (cmp : α → α → Ordering) [Std.TransCmp cmp] :
    Consistent cmp where
  swap _ _ := Std.OrientedCmp.eq_swap
  trans _ _ _ := Std.TransCmp.isLE_trans
  congr _ _ _ h := ⟨Std.TransCmp.congr_left h, Std.TransCmp.congr_right h⟩

namespace Elements

variable {by_ : Option Path} {direction : SortDirection} {a b c : Option Value}

/-- The order of sort keys, reversed when descending. -/
def keyOrder (direction : SortDirection) (a b : Option Value) : Ordering :=
  match direction with
  | .ascending => Value.sortOrderOption a b
  | .descending => (Value.sortOrderOption a b).swap

instance : Std.TransCmp (keyOrder direction) where
  eq_swap {a b} := by
    have hswap := Value.swap_sortOrderOption a b
    cases direction <;> rw [keyOrder, keyOrder, ← hswap, Ordering.swap_swap]
  isLE_trans {a b c} hab hbc := by
    cases direction with
    | ascending =>
      rw [keyOrder] at hab hbc ⊢
      exact Std.TransCmp.isLE_trans hab hbc
    | descending =>
      rw [keyOrder, Ordering.isLE_swap] at hab hbc ⊢
      exact Std.TransCmp.isGE_trans hab hbc

/-- Keys are equal in both directions. -/
theorem keyOrder_eq_iff : keyOrder direction a b = .eq ↔ Value.sortOrderOption a b = .eq := by
  cases direction with
  | ascending => rfl
  | descending => rw [keyOrder, Ordering.swap_eq_eq]

theorem keyOrder_beq_eq :
    (keyOrder direction a b == .eq) = (Value.sortOrderOption a b == .eq) := by
  rw [Bool.eq_iff_iff, beq_iff_eq, beq_iff_eq, keyOrder_eq_iff]

/-- A key may precede another when it is not greater. -/
theorem mayPrecede_eq_isLE : mayPrecede direction a b = (keyOrder direction a b).isLE := by
  cases direction <;> simp only [mayPrecede, keyOrder] <;>
    cases Value.sortOrderOption a b <;> rfl

/-- The order of elements by the keys that a path leads to. -/
def elementOrder (by_ : Option Path) (direction : SortDirection) (v w : Value) : Ordering :=
  keyOrder direction (sortKey by_ v) (sortKey by_ w)

instance : Std.TransCmp (elementOrder by_ direction) where
  eq_swap {v w} := by
    rw [elementOrder, elementOrder]
    exact Std.OrientedCmp.eq_swap
  isLE_trans {v w x} hvw hwx := by
    rw [elementOrder] at hvw hwx ⊢
    exact Std.TransCmp.isLE_trans hvw hwx

/-- To sort elements beside their keys is to sort them by their order. -/
theorem sort_eq_mergeSort (items : List Value) (by_ : Option Path) (direction : SortDirection) :
    sort items by_ direction =
      items.mergeSort fun v w => (elementOrder by_ direction v w).isLE := by
  have hmap : (items.mergeSort fun v w => (elementOrder by_ direction v w).isLE).map
      (fun item => (sortKey by_ item, item)) =
        (items.map fun item => (sortKey by_ item, item)).mergeSort
          fun a b => mayPrecede direction a.1 b.1 :=
    List.map_mergeSort fun v _ w _ => by rw [mayPrecede_eq_isLE, elementOrder]
  rw [sort, ← hmap, List.map_map]
  exact List.map_id _

/-- **The orders that a sort compares by are total preorders**: that of values, that of sort keys,
its reversal, and that of elements by the keys that any path leads to, which is the one
that a sort uses. -/
theorem consistent_orders :
    Consistent Value.sortOrder ∧ Consistent Value.sortOrderOption ∧
      Consistent (fun a b => (Value.sortOrderOption a b).swap) ∧
      ∀ by_ direction, Consistent (elementOrder by_ direction) ∧
        ∀ items, sort items by_ direction =
          items.mergeSort fun v w => (elementOrder by_ direction v w).isLE :=
  ⟨consistent _, consistent _, consistent (keyOrder .descending),
    fun by_ direction => ⟨consistent _, fun items => sort_eq_mergeSort items by_ direction⟩⟩

end Elements

end MetadataRules
