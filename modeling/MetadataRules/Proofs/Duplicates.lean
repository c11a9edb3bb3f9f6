/-
MetadataRules/Proofs/Duplicates.lean

What counts as a duplicate.

Equality of values is symmetric and transitive, but a value with a number in it
that is not a number does not equal itself.  The order in which objects list
their keys does not matter (`Value.equal_laws`).

Dropping duplicates compares an element with those that were kept, and means
all elements in front of it.  That is the same, since an element that was dropped
equals one that was kept, and what equals the one equals the other
(`Elements.deduplicate_eq_firsts`).
-/
import MetadataRules.Proofs.Alike.Condition
import MetadataRules.Proofs.Elements

namespace MetadataRules

namespace Value

variable {a a' : Value}

/-- A value equals itself in another order of keys when it equals itself. -/
theorem equal_of_reordered (ha : a.hasUniqueKeys = true) (h : Reordered a a') :
    a.equal a' = a.isNaNFree :=
  (equal_congr (Alike.refl Number.Tied.refl ha) h.tied).symm.trans (equal_self ha)

end Value

namespace Elements

variable {items kept seen : List Value} {v w : Value}

/-! ### The elements that are kept -/

/-- The elements that equal no element in front of them. -/
def firsts (items : List Value) : List Value :=
  (items.zipIdx.filter fun e => !e.1.isAmong (items.take e.2)).map Prod.fst

theorem isAmong_concat : w.isAmong (seen ++ [v]) = (w.isAmong seen || v.equal w) := by
  simp only [Value.isAmong, List.any_append, List.any_cons, List.any_nil, Bool.or_false]

/-- What equals a dropped element equals one that was seen before. -/
theorem isAmong_of_equal (hseen : ∀ u ∈ seen, u.hasUniqueKeys = true)
    (hv : v.hasUniqueKeys = true) (hw : w.hasUniqueKeys = true) (hdropped : v.isAmong seen = true)
    (heq : v.equal w = true) : w.isAmong seen = true := by
  obtain ⟨u, hu, huv⟩ := List.any_eq_true.1 hdropped
  exact List.any_eq_true.2 ⟨u, hu, Value.equal_trans (hseen u hu) hv hw huv heq⟩

/-- To compare with the elements that were kept is to compare with all that were seen. -/
theorem dedupAfter_eq_firsts (hseen : ∀ u ∈ seen, u.hasUniqueKeys = true)
    (hitems : ∀ u ∈ items, u.hasUniqueKeys = true)
    (hkept : ∀ w : Value, w.hasUniqueKeys = true → w.isAmong kept = w.isAmong seen) :
    dedupAfter kept items =
      ((items.zipIdx seen.length).filter fun e =>
        !e.1.isAmong ((seen ++ items).take e.2)).map Prod.fst := by
  -- every element joins those that were seen, and those that were kept if it is new
  induction items generalizing kept seen with
  | nil => rfl
  | cons v rest ih =>
    obtain ⟨hv, hrest⟩ := List.forall_mem_cons.1 hitems
    have hseen' : ∀ u ∈ seen ++ [v], u.hasUniqueKeys = true :=
      List.forall_mem_append.2 ⟨hseen, List.forall_mem_singleton.2 hv⟩
    have hmove : seen ++ v :: rest = seen ++ [v] ++ rest := List.append_cons _ _ _
    have hlength : seen.length + 1 = (seen ++ [v]).length := by
      rw [List.length_append, List.length_singleton]
    rw [dedupAfter, hkept v hv, List.zipIdx_cons, List.filter_cons, List.take_left, hlength, hmove]
    cases hdropped : v.isAmong seen with
    | true =>
      apply ih hseen' hrest
      intro w hw
      rw [hkept w hw, isAmong_concat]
      cases heq : v.equal w with
      | true => rw [isAmong_of_equal hseen hv hw hdropped heq, Bool.or_true]
      | false => rw [Bool.or_false]
    | false =>
      apply congrArg (List.cons v)
      apply ih hseen' hrest
      intro w hw
      rw [isAmong_concat, isAmong_concat, hkept w hw]

/-- **Dropping duplicates keeps the elements that equal no element in front of them.** -/
theorem deduplicate_eq_firsts (hitems : ∀ v ∈ items, v.hasUniqueKeys = true) :
    deduplicate items = firsts items :=
  dedupAfter_eq_firsts (List.forall_mem_nil _) hitems fun _ _ => rfl

/-! ### No duplicates -/

theorem isAmong_eq_false_of_mem_dedupAfter (hv : v ∈ dedupAfter kept items) :
    v.isAmong kept = false := by
  induction items generalizing kept with
  | nil => cases hv
  | cons item rest ih =>
    rw [dedupAfter] at hv
    split at hv
    · exact ih hv
    · rename_i hnew
      rcases List.mem_cons.1 hv with rfl | hv
      · exact Bool.eq_false_iff.2 hnew
      · have hlater := ih hv
        rw [isAmong_concat, Bool.or_eq_false_iff] at hlater
        exact hlater.1

/-- No element that is kept equals a later one. -/
theorem pairwise_dedupAfter :
    (dedupAfter kept items).Pairwise fun v w => v.equal w = false := by
  induction items generalizing kept with
  | nil => exact .nil
  | cons item rest ih =>
    rw [dedupAfter]
    split
    · exact ih
    · refine List.pairwise_cons.2 ⟨?_, ih⟩
      intro w hw
      have hlater := isAmong_eq_false_of_mem_dedupAfter hw
      rw [isAmong_concat, Bool.or_eq_false_iff] at hlater
      exact hlater.2

end Elements

/-! ### The laws -/

/-- **The laws of equality**, for values in which no object holds a key twice.

* It is symmetric and transitive, and a value equals itself exactly when no number in it is not a
  number.
* No comparison looks at the order of keys, and a value equals itself in another order of keys
  exactly when it equals itself.
* So dropping duplicates keeps the elements that equal no element in front of them, in their
  order.  Of those no two are equal, and none of them is dropped the second time. -/
theorem Value.equal_laws {a b c : Value} (ha : a.hasUniqueKeys = true)
    (hb : b.hasUniqueKeys = true) (hc : c.hasUniqueKeys = true) {items : List Value}
    (hitems : ∀ v ∈ items, v.hasUniqueKeys = true) :
    a.equal b = b.equal a ∧
    (a.equal b = true → b.equal c = true → a.equal c = true) ∧
    a.equal a = a.isNaNFree ∧
    (∀ a' b', Reordered a a' → Reordered b b' →
      a'.equal b' = a.equal b ∧ ∀ op : Comparison, op.holds a' b' = op.holds a b) ∧
    (∀ a', Reordered a a' → a.equal a' = a.isNaNFree) ∧
    Elements.deduplicate items = Elements.firsts items ∧
    (Elements.deduplicate items).Pairwise (fun v w => v.equal w = false ∧ w.equal v = false) ∧
    Elements.deduplicate (Elements.deduplicate items) = Elements.deduplicate items := by
  have hkept : ∀ v ∈ Elements.deduplicate items, v.hasUniqueKeys = true := fun v hv =>
    hitems v (Elements.dedupAfter_sublist.mem hv)
  refine ⟨equal_comm ha hb, equal_trans ha hb hc, equal_self ha, ?_,
    fun a' => equal_of_reordered ha, Elements.deduplicate_eq_firsts hitems, ?_,
    Elements.deduplicate_deduplicate⟩
  · intro a' b' ha' hb'
    exact ⟨(equal_congr ha'.tied hb'.tied).symm,
      fun op => (Comparison.holds_congr ha'.tied hb'.tied op).symm⟩
  · refine Elements.pairwise_dedupAfter.imp_of_mem fun {v w} hv hw hne => ⟨hne, ?_⟩
    rw [equal_comm (hkept w hw) (hkept v hv), hne]

/-- Objects that list their keys in another order count once, and a number that is not a number
counts every time. -/
theorem Value.equal_laws_objects :
    let a : Value := .object [("x", .array [.object [("k", .number .zero), ("l", .null)]]),
      ("y", .string "s")]
    let b : Value := .object [("y", .string "s"),
      ("x", .array [.object [("l", .null), ("k", .number (-.zero))]])]
    let missing : Value := .array [.number .nan]
    let items : List Value := [missing, a, b, missing]
    (a.hasUniqueKeys = true ∧ b.hasUniqueKeys = true ∧ missing.hasUniqueKeys = true) ∧
      b.equal a = true ∧ missing.equal missing = false ∧
      Elements.deduplicate items = [missing, a, missing] := by
  intro a b missing items
  have ha : a.hasUniqueKeys = true := by decide +kernel
  have hb : b.hasUniqueKeys = true := by decide +kernel
  have hmissing : missing.hasUniqueKeys = true := rfl
  have hitems : ∀ v ∈ items, v.hasUniqueKeys = true := by
    simp only [items, List.forall_mem_cons]
    exact ⟨hmissing, ha, hb, hmissing, List.forall_mem_nil _⟩
  obtain ⟨hsymm, -, -, -, -, hfirsts, -⟩ := equal_laws ha hb hmissing hitems
  exact ⟨⟨ha, hb, hmissing⟩, hsymm.symm.trans (by decide +kernel), rfl, hfirsts.trans (by rfl)⟩

end MetadataRules
