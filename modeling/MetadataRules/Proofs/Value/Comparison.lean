/-
MetadataRules/Proofs/Value/Comparison.lean

Comparisons as relations.

A string that looks numeric compares by number with one value and as a text with
another.  Equality does not notice: two values are loosely equal exactly when what
they read as is structurally equal (`Value.looseEqual_eq_equal_reading`), so loose
equality has the laws that structural equality has.

Two sides are ordered by number where both look numeric, and by text where both
are strings (`Comparison.Ordered`).  Their ordering answers all six comparisons
(`Comparison.Ordered.holds_eq`), and where there is none no order holds.  The laws
are put together in `Comparison.holds_laws`.
-/
import Mathlib.Order.Basic
import MetadataRules.Condition.Basic
import MetadataRules.Proofs.Alike.Value
import MetadataRules.Proofs.Number.Decimal

namespace MetadataRules

/-! ### Loose equality -/

namespace Value

variable {a b c : Value}

/-- What a value reads as in a comparison with something that looks numeric. -/
def reading (v : Value) : Value :=
  match v.asNumber? with
  | some n => .number n
  | none => v

/-- Only a string reads as something else, and never as a number that is not a number. -/
theorem reading_cases (v : Value) :
    v.reading = v ∨ ∃ s n, v = .string s ∧ v.reading = .number n ∧ n.isNaN = false := by
  cases v with
  | string s =>
    unfold reading
    cases h : (string s).asNumber? with
    | none => exact .inl rfl
    | some n => exact .inr ⟨s, n, rfl, rfl, (Number.isDecimal_of_ofText? h).isNaN_eq_false⟩
  | _ => exact .inl rfl

theorem isNaNFree_reading (v : Value) : v.reading.isNaNFree = v.isNaNFree := by
  rcases reading_cases v with h | ⟨s, n, rfl, h, hn⟩ <;> rw [h]
  show (!n.isNaN) = true
  rw [hn]
  rfl

theorem isNaNFree_of_asNumber? {n : Number} (h : a.asNumber? = some n) :
    a.isNaNFree = !n.isNaN := by
  have hreading : a.reading = .number n := by rw [reading, h]
  rw [← isNaNFree_reading, hreading]
  rfl

theorem hasUniqueKeys_reading (v : Value) : v.reading.hasUniqueKeys = v.hasUniqueKeys := by
  rcases reading_cases v with h | ⟨s, n, rfl, h, -⟩ <;> rw [h]
  rfl

theorem exists_of_isString (h : a.isString = true) : ∃ s, a = .string s := by
  cases a with
  | string s => exact ⟨s, rfl⟩
  | _ => cases h

theorem isSome_asNumber?_of_equal (h : a.equal b = true) :
    a.asNumber?.isSome = b.asNumber?.isSome := by
  cases a <;> cases b <;> first | rfl | cases h | skip
  obtain rfl := beq_iff_eq.1 h
  rfl

/-- Two values are compared by number, or one of them is no number. -/
theorem asNumber?_cases (a b : Value) :
    (∃ x y, a.asNumber? = some x ∧ b.asNumber? = some y) ∨
      (a.asNumber? = none ∨ b.asNumber? = none) := by
  cases a.asNumber? with
  | none => exact .inr (.inl rfl)
  | some x =>
    cases b.asNumber? with
    | none => exact .inr (.inr rfl)
    | some y => exact .inl ⟨x, y, rfl, rfl⟩

theorem not_both_numbers {x y : Number} (h : a.asNumber? = none ∨ b.asNumber? = none)
    (ha : a.asNumber? = some x) (hb : b.asNumber? = some y) : False := by
  rcases h with h | h
  · cases ha.symm.trans h
  · cases hb.symm.trans h

/-- **Loose equality is structural equality of what the values read as.** -/
theorem looseEqual_eq_equal_reading (a b : Value) :
    a.looseEqual b = a.reading.equal b.reading := by
  have hne {v w : Value} (h : v.asNumber?.isSome = !w.asNumber?.isSome) : v.equal w = false :=
    Bool.eq_false_iff.2 fun heq => Bool.eq_not.1 h (isSome_asNumber?_of_equal heq)
  unfold looseEqual reading
  cases ha : a.asNumber? with
  | some x =>
    cases hb : b.asNumber? with
    | some y => rfl
    | none => exact (hne (by rw [ha, hb]; rfl)).trans (hne (by rw [hb]; rfl)).symm
  | none =>
    cases hb : b.asNumber? with
    | some y => exact (hne (by rw [ha, hb]; rfl)).trans (hne (by rw [ha]; rfl)).symm
    | none => rfl

/-- Loose equality is the weaker one. -/
theorem looseEqual_of_equal (h : a.equal b = true) : a.looseEqual b = true := by
  rw [looseEqual_eq_equal_reading]
  cases a with
  | string s =>
    cases b with
    | string t =>
      obtain rfl := beq_iff_eq.1 h
      rcases reading_cases (string s) with hs | ⟨_, n, -, hs, hn⟩ <;> rw [hs]
      · exact h
      · exact number_equal_refl hn
    | _ => cases h
  -- nothing else reads as anything but itself
  | _ => cases b <;> first | exact h | cases h

theorem looseEqual_self (ha : a.hasUniqueKeys = true) : a.looseEqual a = a.isNaNFree := by
  rw [looseEqual_eq_equal_reading, equal_self ((hasUniqueKeys_reading a).trans ha),
    isNaNFree_reading]

theorem looseEqual_comm (ha : a.hasUniqueKeys = true) (hb : b.hasUniqueKeys = true) :
    a.looseEqual b = b.looseEqual a := by
  rw [looseEqual_eq_equal_reading, looseEqual_eq_equal_reading]
  exact equal_comm ((hasUniqueKeys_reading a).trans ha) ((hasUniqueKeys_reading b).trans hb)

theorem looseEqual_trans (ha : a.hasUniqueKeys = true) (hb : b.hasUniqueKeys = true)
    (hc : c.hasUniqueKeys = true) (hab : a.looseEqual b = true) (hbc : b.looseEqual c = true) :
    a.looseEqual c = true := by
  rw [looseEqual_eq_equal_reading] at *
  exact equal_trans ((hasUniqueKeys_reading a).trans ha) ((hasUniqueKeys_reading b).trans hb)
    ((hasUniqueKeys_reading c).trans hc) hab hbc

theorem equivalence_looseEqual :
    Equivalence fun a b : {v : Value // v.isNaNFree = true ∧ v.hasUniqueKeys = true} =>
      a.1.looseEqual b.1 = true where
  refl a := (looseEqual_self a.2.2).trans a.2.1
  symm {a b} h := (looseEqual_comm b.2.2 a.2.2).trans h
  trans {a b c} := looseEqual_trans a.2.2 b.2.2 c.2.2

end Value

namespace Comparison

variable {a b : Value} {op : Comparison} {o : Ordering}

/-! ### Equality -/

theorem equal_holds (a b : Value) : equal.holds a b = a.looseEqual b := by
  unfold holds Value.looseEqual
  cases a.asNumber? <;> cases b.asNumber? <;> rfl

theorem notEqual_holds (a b : Value) : notEqual.holds a b = !a.looseEqual b := by
  unfold holds Value.looseEqual
  cases a.asNumber? <;> cases b.asNumber? <;> rfl

/-- A value is one of a list when it is equal to one in the list. -/
theorem holds_oneOf_iff (clock : Clock) (p : Path) (ls : List Literal) (doc : Value) :
    (Condition.oneOf p ls).holds clock doc = true ↔
      ∃ l ∈ ls, (Condition.compare p equal l).holds clock doc = true := by
  simp only [Condition.holds, equal_holds]
  cases p.get? doc with
  | none => simp
  | some v => exact List.any_eq_true

/-! ### Order -/

/-- Whether a comparison holds of two sides that are ordered in a way. -/
def ofOrdering : Comparison → Ordering → Bool
  | equal, o => o == .eq
  | notEqual, o => o != .eq
  | less, o => o == .lt
  | lessEq, o => o != .gt
  | greater, o => o == .gt
  | greaterEq, o => o != .lt

theorem ofNumbers_eq_ofOrdering {x y : Number} (hx : x.isNaN = false) (hy : y.isNaN = false)
    (op : Comparison) : op.ofNumbers x y = op.ofOrdering (compare x.key y.key) := by
  have hlt : (compare x.key y.key = .lt) ↔ x.key < y.key := Int.compare_eq_lt
  have heq : (compare x.key y.key = .eq) ↔ x.key = y.key := Int.compare_eq_eq
  have hgt : (compare x.key y.key = .gt) ↔ y.key < x.key := Int.compare_eq_gt
  cases op <;> rw [Bool.eq_iff_iff] <;>
    simp [ofNumbers, ofOrdering, Number.equal, Number.less, Number.lessEq, hx, hy, hlt, heq, hgt]

/-- How two sides are ordered: as numbers where both look numeric, and otherwise as texts.  What is
not a number is in no order. -/
inductive Ordered (a b : Value) : Ordering → Prop
  | numbers {x y : Number} (ha : a.asNumber? = some x) (hb : b.asNumber? = some y)
      (hx : x.isNaN = false) (hy : y.isNaN = false) : Ordered a b (compare x.key y.key)
  | texts {s t : String} (ha : a = .string s) (hb : b = .string t)
      (h : a.asNumber? = none ∨ b.asNumber? = none) : Ordered a b (compare s t)

theorem holds_of_numbers {x y : Number} (ha : a.asNumber? = some x) (hb : b.asNumber? = some y)
    (op : Comparison) : op.holds a b = op.ofNumbers x y := by
  unfold holds
  rw [ha, hb]

/-- Two strings of which one does not look numeric compare as texts. -/
theorem holds_of_texts {s t : String}
    (h : (Value.string s).asNumber? = none ∨ (Value.string t).asNumber? = none)
    (op : Comparison) : op.holds (.string s) (.string t) = op.ofOrdering (compare s t) := by
  have heq : (Value.string s).equal (.string t) = (compare s t == .eq) := by
    rw [Bool.eq_iff_iff, beq_iff_eq, Std.LawfulEqCmp.compare_eq_iff_eq]
    exact beq_iff_eq
  unfold holds
  split
  · rename_i hs ht
    exact (Value.not_both_numbers h hs ht).elim
  · cases op with
    | equal => exact heq
    | notEqual => exact congrArg (!·) heq
    | _ => rfl

/-- **One ordering answers every comparison.** -/
theorem Ordered.holds_eq (h : Ordered a b o) (op : Comparison) :
    op.holds a b = op.ofOrdering o := by
  cases h with
  | numbers ha hb hx hy => rw [holds_of_numbers ha hb, ofNumbers_eq_ofOrdering hx hy]
  | texts ha hb h =>
    subst ha hb
    exact holds_of_texts h op

theorem Ordered.swap (h : Ordered a b o) : Ordered b a o.swap := by
  cases h with
  | numbers ha hb hx hy =>
    rw [← Std.OrientedCmp.eq_swap]
    exact .numbers hb ha hy hx
  | texts ha hb h =>
    rw [← Std.OrientedCmp.eq_swap]
    exact .texts hb ha h.symm

/-- The four comparisons that ask for an order. -/
def isOrder : Comparison → Bool
  | equal | notEqual => false
  | less | lessEq | greater | greaterEq => true

theorem isNaN_eq_false_of_ofNumbers {x y : Number} (hop : op.isOrder = true)
    (h : op.ofNumbers x y = true) : x.isNaN = false ∧ y.isNaN = false := by
  cases op with
  | equal => cases hop
  | notEqual => cases hop
  | _ =>
    simp only [ofNumbers, Number.less, Number.lessEq, Bool.and_eq_true, Bool.not_eq_true'] at h
    simp only [h, and_self]

theorem exists_texts_of_holds (hop : op.isOrder = true)
    (hnone : a.asNumber? = none ∨ b.asNumber? = none) (h : op.holds a b = true) :
    ∃ s t, a = .string s ∧ b = .string t := by
  unfold holds at h
  split at h
  · rename_i ha hb
    exact (Value.not_both_numbers hnone ha hb).elim
  · split at h
    · cases hop
    · cases hop
    · split at h
      · exact ⟨_, _, rfl, rfl⟩
      · cases h

/-- Only two sides that are ordered are in an order. -/
theorem exists_ordered_of_holds (hop : op.isOrder = true) (h : op.holds a b = true) :
    ∃ o, Ordered a b o := by
  rcases Value.asNumber?_cases a b with ⟨x, y, ha, hb⟩ | hnone
  · rw [holds_of_numbers ha hb] at h
    obtain ⟨hx, hy⟩ := isNaN_eq_false_of_ofNumbers hop h
    exact ⟨_, .numbers ha hb hx hy⟩
  · obtain ⟨s, t, ha, hb⟩ := exists_texts_of_holds hop hnone h
    exact ⟨_, .texts ha hb hnone⟩

/-- Both sides look numeric or both are strings, and neither is a number that is not a number. -/
def AreOrdered (a b : Value) : Prop :=
  a.isNaNFree = true ∧ b.isNaNFree = true ∧
    (a.asNumber?.isSome = true ∧ b.asNumber?.isSome = true ∨
      a.isString = true ∧ b.isString = true)

theorem exists_ordered_iff : (∃ o, Ordered a b o) ↔ AreOrdered a b := by
  constructor
  · rintro ⟨o, h⟩
    cases h with
    | numbers ha hb hx hy =>
      rw [AreOrdered, Value.isNaNFree_of_asNumber? ha, Value.isNaNFree_of_asNumber? hb, hx, hy, ha,
        hb]
      exact ⟨rfl, rfl, .inl ⟨rfl, rfl⟩⟩
    | texts ha hb h =>
      subst ha hb
      exact ⟨rfl, rfl, .inr ⟨rfl, rfl⟩⟩
  · rintro ⟨ha, hb, h⟩
    rcases Value.asNumber?_cases a b with ⟨x, y, hx, hy⟩ | hnone
    · rw [Value.isNaNFree_of_asNumber? hx, Bool.not_eq_true'] at ha
      rw [Value.isNaNFree_of_asNumber? hy, Bool.not_eq_true'] at hb
      exact ⟨_, .numbers hx hy ha hb⟩
    · rcases h with ⟨hx, hy⟩ | ⟨hs, ht⟩
      · obtain ⟨x, hx⟩ := Option.isSome_iff_exists.1 hx
        obtain ⟨y, hy⟩ := Option.isSome_iff_exists.1 hy
        exact (Value.not_both_numbers hnone hx hy).elim
      · obtain ⟨s, rfl⟩ := Value.exists_of_isString hs
        obtain ⟨t, rfl⟩ := Value.exists_of_isString ht
        exact ⟨_, .texts rfl rfl hnone⟩

theorem existsUnique_ofOrdering (o : Ordering) :
    ∃! op : Comparison, op ∈ [less, equal, greater] ∧ op.ofOrdering o = true := by
  have hcases {op : Comparison} (h : op ∈ [less, equal, greater]) :
      op = less ∨ op = equal ∨ op = greater := by
    simpa only [List.mem_cons, List.not_mem_nil, or_false] using h
  cases o with
  | lt =>
    refine ⟨less, ⟨by decide, rfl⟩, ?_⟩
    rintro op ⟨hop, h⟩
    rcases hcases hop with rfl | rfl | rfl <;> first | rfl | cases h
  | eq =>
    refine ⟨equal, ⟨by decide, rfl⟩, ?_⟩
    rintro op ⟨hop, h⟩
    rcases hcases hop with rfl | rfl | rfl <;> first | rfl | cases h
  | gt =>
    refine ⟨greater, ⟨by decide, rfl⟩, ?_⟩
    rintro op ⟨hop, h⟩
    rcases hcases hop with rfl | rfl | rfl <;> first | rfl | cases h

/-- The comparisons of two sides that are ordered. -/
theorem Ordered.laws (h : Ordered a b o) :
    (∃! op : Comparison, op ∈ [less, equal, greater] ∧ op.holds a b = true) ∧
      lessEq.holds a b = (less.holds a b || equal.holds a b) ∧
      greaterEq.holds a b = (greater.holds a b || equal.holds a b) ∧
      less.holds a b = greater.holds b a := by
  simp only [h.holds_eq, h.swap.holds_eq]
  refine ⟨existsUnique_ofOrdering o, ?_, ?_, ?_⟩ <;> cases o <;> rfl

end Comparison

/-! ### The laws -/

/-- **The laws of comparisons.**

* Loose equality is an equivalence of the values without a number that is not a number, and
  structural equality is a special case of it.
* `=` is loose equality and `!=` the opposite, whatever the values are, and a value is in a list
  exactly when `=` holds with one of the list.
* Between two sides that both look numeric, or are both strings, exactly one of `<`, `=` and `>`
  holds, `<=` is `<` or `=`, `>=` is `>` or `=`, and `<` is `>` the other way round.  Between any
  other two none of the four orders holds. -/
theorem Comparison.holds_laws :
    Equivalence (fun a b : {v : Value // v.isNaNFree = true ∧ v.hasUniqueKeys = true} =>
      a.1.looseEqual b.1 = true) ∧
    (∀ a b : Value, a.equal b = true → a.looseEqual b = true) ∧
    (∀ a b : Value, equal.holds a b = a.looseEqual b ∧ notEqual.holds a b = !a.looseEqual b) ∧
    (∀ (clock : Clock) (p : Path) (ls : List Literal) (doc : Value),
      (Condition.oneOf p ls).holds clock doc = true ↔
        ∃ l ∈ ls, (Condition.compare p .equal l).holds clock doc = true) ∧
    ∀ a b : Value,
      (AreOrdered a b →
        (∃! op : Comparison, op ∈ [less, equal, greater] ∧ op.holds a b = true) ∧
        lessEq.holds a b = (less.holds a b || equal.holds a b) ∧
        greaterEq.holds a b = (greater.holds a b || equal.holds a b) ∧
        less.holds a b = greater.holds b a) ∧
      (¬AreOrdered a b → ∀ op : Comparison, op.isOrder = true → op.holds a b = false) := by
  refine ⟨Value.equivalence_looseEqual, fun a b => Value.looseEqual_of_equal,
    fun a b => ⟨equal_holds a b, notEqual_holds a b⟩, holds_oneOf_iff, fun a b => ⟨?_, ?_⟩⟩
  · intro h
    obtain ⟨o, ho⟩ := exists_ordered_iff.2 h
    exact ho.laws
  · intro h op hop
    rw [Bool.eq_false_iff]
    intro hholds
    exact h (exists_ordered_iff.1 (exists_ordered_of_holds hop hholds))

/-- Two texts are loosely equal by way of the number that both stand for.  The text `"10"` stands
for more than 9, `"a10"` comes before `"a9"`, and a number is in no order with a text that is none. -/
theorem Comparison.holds_laws_texts :
    let nine : Value := .number (.ofInt 9)
    let ten : Value := .number (.ofInt 10)
    (Value.string "10").looseEqual (.string "1e1") = true ∧
      less.holds nine (.string "10") = true ∧
      less.holds (.string "a10") (.string "a9") = true ∧
      greater.holds ten (.string "a") = false := by
  intro nine ten
  obtain ⟨hequiv, -, -, -, horder⟩ := holds_laws
  have hten : Value.looseEqual (.string "10") ten = true := by decide +kernel
  have hexponent : ten.looseEqual (.string "1e1") = true := by decide +kernel
  have hnumbers : AreOrdered nine (.string "10") :=
    exists_ordered_iff.1 ⟨_, .numbers rfl rfl (by decide +kernel) (by decide +kernel)⟩
  refine ⟨?_, ?_, by decide +kernel, ?_⟩
  · exact @hequiv.trans ⟨.string "10", rfl, rfl⟩ ⟨ten, by decide +kernel, rfl⟩
      ⟨.string "1e1", rfl, rfl⟩ hten hexponent
  · rw [((horder _ _).1 hnumbers).2.2.2]
    decide +kernel
  · have hother : ¬AreOrdered ten (.string "a") := by
      rintro ⟨-, -, ⟨-, h⟩ | ⟨h, -⟩⟩
      · exact absurd h (by decide +kernel)
      · cases h
    exact (horder _ _).2 hother _ rfl

end MetadataRules
