/-
MetadataRules/Proofs/Alike/Value.lean

Values that list their entries in another order.

An object is a map; the order in which it lists its keys is kept but means
nothing.  Two values are `Alike` when they differ in that order only, at any
depth, and in their numbers as far as a relation lets them.  Two instances
matter:

* `Value.Reordered` — the same numbers on both sides, so that nothing but the
  order of keys differs;
* `Value.Alike Number.Tied` — numbers that no comparison tells apart, which
  takes in all values that are equal (`Value.alike_of_equal`).

Neither equality (`Value.equal_congr`) nor the order of values
(`Value.sortOrder_congr`) looks at the order of keys.
-/
import Mathlib.Data.List.Nodup
import Mathlib.Data.List.Perm.Subperm
import Mathlib.Data.Option.Defs
import MetadataRules.Proofs.Value.Equality
import MetadataRules.Value.Comparison
import MetadataRules.Value.Order

namespace MetadataRules

/-! ### Numbers -/

/-- Numbers that no comparison tells apart, as the two zeros. -/
structure Number.Tied (m n : Number) : Prop where
  isNaN : m.isNaN = n.isNaN
  key : m.key = n.key

namespace Number

variable {m m' n n' : Number}

theorem Tied.refl (n : Number) : Tied n n := ⟨rfl, rfl⟩

theorem tied_of_eq (h : m = n) : Tied m n := h ▸ Tied.refl m

theorem tied_of_equal (h : m.equal n = true) : Tied m n := by
  simp only [equal, Bool.and_eq_true, Bool.not_eq_true', decide_eq_true_eq] at h
  obtain ⟨⟨hm, hn⟩, hkey⟩ := h
  exact ⟨hm.trans hn.symm, hkey⟩

theorem Tied.equal (h : Tied m m') (h' : Tied n n') : m.equal n = m'.equal n' := by
  rw [Number.equal, Number.equal, h.isNaN, h'.isNaN, h.key, h'.key]

theorem Tied.less (h : Tied m m') (h' : Tied n n') : m.less n = m'.less n' := by
  rw [Number.less, Number.less, h.isNaN, h'.isNaN, h.key, h'.key]

theorem Tied.lessEq (h : Tied m m') (h' : Tied n n') : m.lessEq n = m'.lessEq n' := by
  rw [Number.lessEq, Number.lessEq, h.isNaN, h'.isNaN, h.key, h'.key]

theorem isZero_eq_key (n : Number) : n.isZero = decide (n.key = 0) := by
  unfold isZero key
  cases n.isNegative <;> simp

theorem Tied.isZero (h : Tied m n) : m.isZero = n.isZero := by
  rw [isZero_eq_key, isZero_eq_key, h.key]

theorem Tied.ofNumbers (h : Tied m m') (h' : Tied n n') (op : Comparison) :
    op.ofNumbers m n = op.ofNumbers m' n' := by
  cases op with
  | equal => exact h.equal h'
  | notEqual => exact congrArg (!·) (h.equal h')
  | less => exact h.less h'
  | lessEq => exact h.lessEq h'
  | greater => exact h'.less h
  | greaterEq => exact h'.lessEq h

end Number

/-! ### Optional values -/

section Options

variable {α β : Type} {R : α → β → Prop} {x : Option α} {y : Option β}

theorem optionRel_iff : Option.Rel R x y ↔
    (x = none ∧ y = none) ∨ ∃ a b, x = some a ∧ y = some b ∧ R a b := by
  cases x <;> cases y <;> simp

theorem optionRel_imp {S : α → β → Prop} (hRS : ∀ a b, R a b → S a b) (h : Option.Rel R x y) :
    Option.Rel S x y := by
  cases h with
  | some hab => exact .some (hRS _ _ hab)
  | none => exact .none

end Options

/-! ### Entries -/

namespace Fields

variable {α β : Type} {R : α → β → Prop} {as : Fields α} {bs : Fields β} {key : String}

theorem exists_right_of_rel (h : ∀ key, Option.Rel R (get? as key) (get? bs key)) {a : α}
    (ha : get? as key = some a) : ∃ b, get? bs key = some b ∧ R a b := by
  rcases optionRel_iff.1 (h key) with ⟨hnone, -⟩ | ⟨a', b, ha', hb, hab⟩
  · rw [ha] at hnone
    cases hnone
  · obtain rfl := Option.some.inj (ha.symm.trans ha')
    exact ⟨b, hb, hab⟩

theorem exists_left_of_rel (h : ∀ key, Option.Rel R (get? as key) (get? bs key)) {b : β}
    (hb : get? bs key = some b) : ∃ a, get? as key = some a ∧ R a b := by
  rcases optionRel_iff.1 (h key) with ⟨-, hnone⟩ | ⟨a, b', ha, hb', hab⟩
  · rw [hb] at hnone
    cases hnone
  · obtain rfl := Option.some.inj (hb.symm.trans hb')
    exact ⟨a, ha, hab⟩

theorem get?_eq_none_iff_of_rel (h : ∀ key, Option.Rel R (get? as key) (get? bs key)) :
    get? as key = none ↔ get? bs key = none := by
  rcases optionRel_iff.1 (h key) with ⟨ha, hb⟩ | ⟨a, b, ha, hb, -⟩ <;> rw [ha, hb] <;> simp

/-- Entries with related values under the same keys have the same keys. -/
theorem perm_keys_of_rel (has : (keys as).Nodup) (hbs : (keys bs).Nodup)
    (h : ∀ key, Option.Rel R (get? as key) (get? bs key)) : (keys as).Perm (keys bs) := by
  rw [List.perm_ext_iff_of_nodup has hbs]
  intro key
  rw [← not_iff_not, ← get?_eq_none_iff, ← get?_eq_none_iff]
  exact get?_eq_none_iff_of_rel h

/-- The order of entries does not matter to what a key has. -/
theorem get?_eq_of_perm {as bs : Fields α} (has : (keys as).Nodup) (h : as.Perm bs)
    (key : String) : get? as key = get? bs key := by
  have hkeys : (keys as).Perm (keys bs) := h.map Prod.fst
  cases ha : get? as key with
  | none =>
    rw [get?_eq_none_iff, hkeys.mem_iff, ← get?_eq_none_iff] at ha
    exact ha.symm
  | some a =>
    have hmem : (key, a) ∈ bs := h.mem_iff.1 (mem_of_get?_eq_some ha)
    exact (get?_of_mem (hkeys.nodup_iff.1 has) hmem).symm

theorem get?_rel_of_forall₂ (h : List.Forall₂ (fun d e => d.1 = e.1 ∧ R d.2 e.2) as bs)
    (key : String) : Option.Rel R (get? as key) (get? bs key) := by
  induction h with
  | nil => exact .none
  | @cons d e as bs hde _ ih =>
    obtain ⟨k, a⟩ := d
    obtain ⟨k', b⟩ := e
    obtain ⟨rfl, hab⟩ := hde
    by_cases hkey : k = key
    · simpa [get?, hkey] using hab
    · simpa [get?, hkey] using ih

theorem keys_eq_of_forall₂ (h : List.Forall₂ (fun d e => d.1 = e.1 ∧ R d.2 e.2) as bs) :
    keys as = keys bs := by
  induction h with
  | nil => rfl
  | cons hde _ ih => exact congrArg₂ List.cons hde.1 ih

theorem length_eq_of_rel (has : (keys as).Nodup) (hbs : (keys bs).Nodup)
    (h : ∀ key, Option.Rel R (get? as key) (get? bs key)) : as.length = bs.length := by
  simpa [keys] using (perm_keys_of_rel has hbs h).length_eq

end Fields

/-! ### Values -/

/-- Values that differ in the order of the keys of their objects, and in their numbers as
`same` allows.  No object holds a key twice. -/
inductive Value.Alike (same : Number → Number → Prop) : Value → Value → Prop
  | null : Alike same .null .null
  | boolean (b : Bool) : Alike same (.boolean b) (.boolean b)
  | number {m n : Number} (h : same m n) : Alike same (.number m) (.number n)
  | string (s : String) : Alike same (.string s) (.string s)
  | array {as bs : List Value} (h : List.Forall₂ (Alike same) as bs) :
      Alike same (.array as) (.array bs)
  | object {as bs : Fields Value} (hleft : (Fields.keys as).Nodup)
      (hright : (Fields.keys bs).Nodup)
      (h : ∀ key, Option.Rel (Alike same) (Fields.get? as key) (Fields.get? bs key)) :
      Alike same (.object as) (.object bs)

/-- Values that differ in the order of the keys of their objects and in nothing else. -/
abbrev Value.Reordered : Value → Value → Prop := Value.Alike Eq

namespace Value

variable {same : Number → Number → Prop} {a a' b b' v w : Value} {as bs : Fields Value}

/-- Induction over two values that are alike. -/
@[elab_as_elim]
theorem Alike.rec_parts {motive : ∀ a b, Alike same a b → Prop} (null : motive _ _ .null)
    (boolean : ∀ b, motive _ _ (.boolean b))
    (number : ∀ {m n} (h : same m n), motive _ _ (.number h))
    (string : ∀ s, motive _ _ (.string s))
    (array : ∀ {as bs} (h : List.Forall₂ (Alike same) as bs),
      List.Forall₂ (fun a b => ∃ hab, motive a b hab) as bs → motive _ _ (.array h))
    (object : ∀ {as bs} (hleft : (Fields.keys as).Nodup) (hright : (Fields.keys bs).Nodup)
      (h : ∀ key, Option.Rel (Alike same) (Fields.get? as key) (Fields.get? bs key)),
      (∀ key, Option.Rel (fun a b => ∃ hab, motive a b hab) (Fields.get? as key)
        (Fields.get? bs key)) → motive _ _ (.object hleft hright h))
    (h : Alike same a b) : motive a b h := by
  refine @Alike.rec same motive (fun as bs _ => List.Forall₂ (fun a b => ∃ h, motive a b h) as bs)
    (fun x y _ => Option.Rel (fun a b => ∃ h, motive a b h) x y) null boolean number string
    ?_ ?_ ?_ ?_ ?_ ?_ a b h
  · exact fun h hitems => array h hitems
  · exact fun hleft hright h hfields => object hleft hright h hfields
  · exact .nil
  · exact fun hhead _ ihhead ihrest => .cons ⟨hhead, ihhead⟩ ihrest
  · exact fun h ih => .some ⟨h, ih⟩
  · exact .none

namespace Alike

theorem array_inj {as bs : List Value} (h : Alike same (.array as) (.array bs)) :
    List.Forall₂ (Alike same) as bs := by
  cases h with
  | array h => exact h

theorem get? (h : Alike same (.object as) (.object bs)) (key : String) :
    Option.Rel (Alike same) (Fields.get? as key) (Fields.get? bs key) := by
  cases h with
  | object _ _ h => exact h key

theorem nodup_left (h : Alike same (.object as) (.object bs)) : (Fields.keys as).Nodup := by
  cases h with
  | object h _ _ => exact h

theorem nodup_right (h : Alike same (.object as) (.object bs)) : (Fields.keys bs).Nodup := by
  cases h with
  | object _ h _ => exact h

/-- A value without repeated keys is like itself. -/
theorem refl (hsame : ∀ n, same n n) (hv : v.hasUniqueKeys = true) : Alike same v v := by
  induction v with
  | null => exact .null
  | boolean b => exact .boolean b
  | number n => exact .number (hsame n)
  | string s => exact .string s
  | array items ih =>
    rw [hasUniqueKeys_array_iff] at hv
    exact .array (List.forall₂_same.2 fun v hmem => ih v hmem (hv v hmem))
  | object fields ih =>
    rw [hasUniqueKeys_object_iff] at hv
    refine .object hv.1 hv.1 fun key => ?_
    cases hget : Fields.get? fields key with
    | none => exact .none
    | some v =>
      have hmem := Fields.mem_of_get?_eq_some hget
      exact .some (ih _ hmem (hv.2 _ hmem))

/-- Objects are alike when the entries of one, put in another order, are those of the other,
key by key and value by value. -/
theorem object_iff_perm : Alike same (.object as) (.object bs) ↔
    (Fields.keys as).Nodup ∧ ∃ mid, as.Perm mid ∧
      List.Forall₂ (fun d e => d.1 = e.1 ∧ Alike same d.2 e.2) mid bs := by
  constructor
  · intro h
    have hentry : ∀ e ∈ bs, ∃ v, Fields.get? as e.1 = some v ∧ Alike same v e.2 := fun e he =>
      Fields.exists_left_of_rel h.get? (Fields.get?_of_mem h.nodup_right he)
    -- the entries of the left in the order of the right
    refine ⟨h.nodup_left, bs.map fun e => (e.1, (Fields.get? as e.1).getD .null), ?_, ?_⟩
    · have hnodup : (bs.map fun e => (e.1, (Fields.get? as e.1).getD .null)).Nodup := by
        refine List.Nodup.of_map Prod.fst ?_
        rw [List.map_map]
        exact h.nodup_right
      rw [List.perm_ext_iff_of_nodup (List.Nodup.of_map Prod.fst h.nodup_left) hnodup]
      rintro ⟨key, v⟩
      rw [List.mem_map]
      constructor
      · intro hmem
        have hv := Fields.get?_of_mem h.nodup_left hmem
        obtain ⟨w, hw, -⟩ := Fields.exists_right_of_rel h.get? hv
        exact ⟨(key, w), Fields.mem_of_get?_eq_some hw, by rw [hv]; rfl⟩
      · rintro ⟨e, he, heq⟩
        obtain ⟨v', hv', -⟩ := hentry e he
        rw [hv'] at heq
        obtain ⟨rfl, rfl⟩ := Prod.mk.inj heq
        exact Fields.mem_of_get?_eq_some hv'
    · rw [List.forall₂_map_left_iff, List.forall₂_same]
      intro e he
      obtain ⟨v, hv, halike⟩ := hentry e he
      rw [hv]
      exact ⟨rfl, halike⟩
  · rintro ⟨has, mid, hperm, hmid⟩
    have hkeys : (Fields.keys as).Perm (Fields.keys bs) :=
      Fields.keys_eq_of_forall₂ hmid ▸ hperm.map Prod.fst
    refine .object has (hkeys.nodup_iff.1 has) fun key => ?_
    rw [Fields.get?_eq_of_perm has hperm]
    exact Fields.get?_rel_of_forall₂ hmid key

/-- Values stay alike when more numbers count as the same. -/
theorem mono {same' : Number → Number → Prop} (hsame : ∀ m n, same m n → same' m n)
    (h : Alike same a b) : Alike same' a b := by
  induction h using Alike.rec_parts with
  | null => exact .null
  | boolean b => exact .boolean b
  | number h => exact .number (hsame _ _ h)
  | string s => exact .string s
  | array _ ih => exact .array (ih.imp fun _ _ hab => hab.2)
  | object hleft hright _ ih =>
    exact .object hleft hright fun key => optionRel_imp (fun _ _ hab => hab.2) (ih key)

/-- Values that differ in the order of keys are tied, number by number. -/
theorem tied (h : Reordered a b) : Alike Number.Tied a b := h.mono fun _ _ => Number.tied_of_eq

end Alike

/-! ### Equality -/

theorem equal_object_iff_get? (has : (Fields.keys as).Nodup) :
    (object as).equal (object bs) = true ↔ as.length = bs.length ∧
      ∀ key v, Fields.get? as key = some v →
        ∃ w, Fields.get? bs key = some w ∧ v.equal w = true := by
  rw [equal_object_iff]
  refine and_congr_right fun _ => ⟨fun h key v hget => ?_, fun h e he => ?_⟩
  · exact h (key, v) (Fields.mem_of_get?_eq_some hget)
  · exact h e.1 e.2 (Fields.get?_of_mem has he)

/-- **Equality does not look at the order of keys**, nor at anything that comparisons do not. -/
theorem equal_congr (ha : Alike Number.Tied a a') (hb : Alike Number.Tied b b') :
    a.equal b = a'.equal b' := by
  induction ha using Alike.rec_parts generalizing b b' with
  | null => cases hb <;> rfl
  | boolean x => cases hb <;> rfl
  | number h =>
    cases hb with
    | number h' =>
      rw [equal, equal]
      exact h.equal h'
    | _ => rfl
  | string s => cases hb <;> rfl
  | array h ih =>
    clear h
    cases hb with
    | @array bs bs' h' =>
      rw [equal, equal]
      induction ih generalizing bs bs' with
      | nil => cases h' <;> rfl
      | cons hhead _ ihrest =>
        cases h' with
        | nil => rfl
        | cons hhead' hrest' =>
          rw [equalItems, equalItems, hhead.2 hhead', ihrest hrest']
    | _ => rfl
  | object hleft hright h ih =>
    cases hb with
    | @object bs bs' hleft' hright' h' =>
      have hlength := Fields.length_eq_of_rel hleft hright h
      have hlength' := Fields.length_eq_of_rel hleft' hright' h'
      rw [Bool.eq_iff_iff, equal_object_iff_get? hleft, equal_object_iff_get? hright, hlength,
        hlength']
      refine and_congr_right fun _ => ⟨fun hall key v' hv' => ?_, fun hall key v hv => ?_⟩
      · obtain ⟨v, hv, -, hvalue⟩ := Fields.exists_left_of_rel ih hv'
        obtain ⟨w, hw, heq⟩ := hall key v hv
        obtain ⟨w', hw', hvalue'⟩ := Fields.exists_right_of_rel h' hw
        exact ⟨w', hw', (hvalue hvalue').symm.trans heq⟩
      · obtain ⟨v', hv', -, hvalue⟩ := Fields.exists_right_of_rel ih hv
        obtain ⟨w', hw', heq⟩ := hall key v' hv'
        obtain ⟨w, hw, hvalue'⟩ := Fields.exists_left_of_rel h' hw'
        exact ⟨w, hw, (hvalue hvalue').trans heq⟩
    | _ => rfl

/-- Values that are equal differ in the order of keys only, and in numbers that are tied. -/
theorem alike_of_equal (ha : a.hasUniqueKeys = true) (hb : b.hasUniqueKeys = true)
    (h : a.equal b = true) : Alike Number.Tied a b := by
  induction a generalizing b with
  | null =>
    cases b with
    | null => exact .null
    | _ => simp [equal] at h
  | boolean x =>
    cases b with
    | boolean y =>
      obtain rfl : x = y := by simpa [equal] using h
      exact .boolean x
    | _ => simp [equal] at h
  | number m =>
    cases b with
    | number n => exact .number (Number.tied_of_equal (by simpa [equal] using h))
    | _ => simp [equal] at h
  | string s =>
    cases b with
    | string t =>
      obtain rfl : s = t := by simpa [equal] using h
      exact .string s
    | _ => simp [equal] at h
  | array as ih =>
    cases b with
    | array bs =>
      rw [equal_array_iff] at h
      rw [hasUniqueKeys_array_iff] at ha hb
      refine .array (List.forall₂_iff_zip.2 ⟨h.length_eq, fun {a b} hzip => ?_⟩)
      have hmem := List.of_mem_zip hzip
      exact ih a hmem.1 (ha a hmem.1) (hb b hmem.2) (List.forall₂_zip h hzip)
    | _ => simp [equal] at h
  | object as ih =>
    cases b with
    | object bs =>
      rw [hasUniqueKeys_object_iff] at ha hb
      obtain ⟨hlength, hall⟩ := (equal_object_iff_get? ha.1).1 h
      -- all keys of the left are among as many on the right, so there are no others
      have hkeys : (Fields.keys as).Perm (Fields.keys bs) := by
        apply List.Subperm.perm_of_length_le
        · refine List.subperm_of_subset ha.1 fun key hkey => ?_
          obtain ⟨⟨key, v⟩, hmem, rfl⟩ := List.mem_map.1 hkey
          obtain ⟨w, hw, -⟩ := hall key v (Fields.get?_of_mem ha.1 hmem)
          show key ∈ Fields.keys bs
          exact List.mem_map_of_mem (f := Prod.fst) (Fields.mem_of_get?_eq_some hw)
        · simp [Fields.keys, hlength]
      refine .object ha.1 hb.1 fun key => ?_
      cases hv : Fields.get? as key with
      | none =>
        have hnone : Fields.get? bs key = none := by
          rw [Fields.get?_eq_none_iff] at hv ⊢
          exact fun hmem => hv (hkeys.mem_iff.2 hmem)
        rw [hnone]
        exact .none
      | some v =>
        obtain ⟨w, hw, heq⟩ := hall key v hv
        have hmem := Fields.mem_of_get?_eq_some hv
        have hmem' := Fields.mem_of_get?_eq_some hw
        rw [hw]
        exact .some (ih _ hmem (ha.2 _ hmem) (hb.2 _ hmem') heq)
    | _ => simp [equal] at h

/-- Equal values are equal to the same values. -/
theorem equal_eq_of_equal {c : Value} (ha : a.hasUniqueKeys = true) (hb : b.hasUniqueKeys = true)
    (hc : c.hasUniqueKeys = true) (h : a.equal b = true) : a.equal c = b.equal c :=
  equal_congr (alike_of_equal ha hb h) (Alike.refl Number.Tied.refl hc)

theorem equal_trans {c : Value} (ha : a.hasUniqueKeys = true) (hb : b.hasUniqueKeys = true)
    (hc : c.hasUniqueKeys = true) (hab : a.equal b = true) (hbc : b.equal c = true) :
    a.equal c = true :=
  (equal_eq_of_equal ha hb hc hab).trans hbc

theorem equal_symm (ha : a.hasUniqueKeys = true) (hb : b.hasUniqueKeys = true)
    (h : a.equal b = true) : b.equal a = true := by
  have halike := alike_of_equal ha hb h
  -- a value that equals another one is itself no exception
  have hself : a.equal a = true :=
    (equal_congr (Alike.refl Number.Tied.refl ha) halike).trans h
  exact (equal_eq_of_equal ha hb ha h).symm.trans hself

theorem equal_comm (ha : a.hasUniqueKeys = true) (hb : b.hasUniqueKeys = true) :
    a.equal b = b.equal a := by
  rw [Bool.eq_iff_iff]
  exact ⟨equal_symm ha hb, equal_symm hb ha⟩

/-! ### Order -/

/-- **The order of values does not look at the order of keys.** -/
theorem sortOrder_congr (ha : Reordered a a') (hb : Reordered b b') :
    sortOrder a b = sortOrder a' b' := by
  induction ha using Alike.rec_parts generalizing b b' with
  | null => cases hb <;> rfl
  | boolean x => cases hb <;> rfl
  | number h =>
    subst h
    cases hb with
    | number h' =>
      subst h'
      rfl
    | _ => rfl
  | string s => cases hb <;> rfl
  | array h ih =>
    clear h
    cases hb with
    | @array bs bs' h' =>
      rw [sortOrder, sortOrder]
      induction ih generalizing bs bs' with
      | nil => cases h' <;> rfl
      | cons hhead _ ihrest =>
        cases h' with
        | nil => rfl
        | cons hhead' hrest' =>
          rw [sortOrderItems, sortOrderItems, hhead.2 hhead', ihrest hrest']
    | _ => rfl
  | object hleft hright h _ =>
    cases hb with
    | object hleft' hright' h' =>
      rw [sortOrder, sortOrder, Fields.length_eq_of_rel hleft hright h,
        Fields.length_eq_of_rel hleft' hright' h']
    | _ => rfl

end Value

end MetadataRules
