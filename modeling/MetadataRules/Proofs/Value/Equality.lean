/-
MetadataRules/Proofs/Value/Equality.lean

Structural equality of values as a relation.

`equal` compares arrays element by element and objects by looking up every key
of one side in the other (`Value.equal_array_iff`, `Value.equal_object_iff`).
From these two:

* `Value.equal_self` — a value without repeated keys equals itself, unless some
  number in it is not a number;
* `Value.height_le_of_equal` — equal values are equally deep, so no value
  equals one of its own parts (`Value.not_equal_of_get?`);
* `Steps.equal_replace` — a document in which a part was replaced equals the
  document exactly when the new part equals the old one;
* `Steps.not_equal_erase?` — a document from which something was removed does
  not equal the document.
-/
import Mathlib.Data.List.Forall2
import MetadataRules.Proofs.Path.Access
import MetadataRules.Proofs.Value.Edits
import MetadataRules.Value.Equality

namespace MetadataRules

namespace Value

/-! ### The two containers -/

theorem equalItems_iff {as bs : List Value} :
    equalItems as bs = true ↔ List.Forall₂ (fun a b => a.equal b = true) as bs := by
  induction as generalizing bs with
  | nil => cases bs <;> simp [equalItems]
  | cons a as ih => cases bs <;> simp [equalItems, ih]

theorem equalEntries_iff {as bs : Fields Value} :
    equalEntries as bs = true ↔
      ∀ e ∈ as, ∃ b, Fields.get? bs e.1 = some b ∧ e.2.equal b = true := by
  induction as with
  | nil => simp [equalEntries]
  | cons e as ih =>
    rw [equalEntries, Bool.and_eq_true, ih, List.forall_mem_cons]
    rcases Fields.get? bs e.1 with - | b <;> simp

theorem equal_array_iff {as bs : List Value} :
    (array as).equal (array bs) = true ↔
      List.Forall₂ (fun a b => a.equal b = true) as bs := by
  rw [equal, equalItems_iff]

theorem equal_object_iff {as bs : Fields Value} :
    (object as).equal (object bs) = true ↔
      as.length = bs.length ∧
        ∀ e ∈ as, ∃ b, Fields.get? bs e.1 = some b ∧ e.2.equal b = true := by
  rw [equal, Bool.and_eq_true, equalEntries_iff, beq_iff_eq]

/-! ### Reflexivity -/

theorem number_equal_refl {n : Number} (h : n.isNaN = false) : n.equal n = true := by
  simp [Number.equal, h]

/-- A value equals itself, unless some number in it is not a number. -/
theorem equal_refl {v : Value} (hn : v.isNaNFree = true) (hu : v.hasUniqueKeys = true) :
    v.equal v = true := by
  induction v with
  | null => rfl
  | boolean b => simp [equal]
  | number n => exact number_equal_refl (by simpa [isNaNFree, all] using hn)
  | string s => simp [equal]
  | array items ih =>
    rw [isNaNFree_array_iff] at hn
    rw [hasUniqueKeys_array_iff] at hu
    rw [equal_array_iff, List.forall₂_same]
    exact fun v hv => ih v hv (hn v hv) (hu v hv)
  | object fields ih =>
    rw [isNaNFree_object_iff] at hn
    rw [hasUniqueKeys_object_iff] at hu
    rw [equal_object_iff]
    exact ⟨rfl, fun e he => ⟨e.2, Fields.get?_of_mem hu.1 he, ih e he (hn e he) (hu.2 e he)⟩⟩

theorem exists_equal_of_mem {a : Value} {as bs : List Value}
    (h : List.Forall₂ (fun a b => a.equal b = true) as bs) (ha : a ∈ as) :
    ∃ b ∈ bs, a.equal b = true := by
  induction h with
  | nil => cases ha
  | cons hab _ ih =>
    rcases List.mem_cons.1 ha with rfl | ha
    · exact ⟨_, List.mem_cons_self, hab⟩
    · obtain ⟨b, hb, heq⟩ := ih ha
      exact ⟨b, List.mem_cons_of_mem _ hb, heq⟩

/-- A number that is not a number differs from everything, and so does a value around it. -/
theorem isNaNFree_of_equal {a b : Value} (h : a.equal b = true) : a.isNaNFree = true := by
  induction a generalizing b with
  | number n =>
    cases b with
    | number m =>
      simp only [equal, Number.equal, Bool.and_eq_true] at h
      exact h.1.1
    | _ => cases h
  | array as ih =>
    cases b with
    | array bs =>
      refine isNaNFree_array_iff.2 fun v hv => ?_
      obtain ⟨w, -, heq⟩ := exists_equal_of_mem (equal_array_iff.1 h) hv
      exact ih v hv heq
    | _ => cases h
  | object as ih =>
    cases b with
    | object bs =>
      refine isNaNFree_object_iff.2 fun e he => ?_
      obtain ⟨w, -, heq⟩ := (equal_object_iff.1 h).2 e he
      exact ih e he heq
    | _ => cases h
  | _ => rfl

/-- **A value equals itself exactly when no number in it is not a number.** -/
theorem equal_self {v : Value} (hu : v.hasUniqueKeys = true) : v.equal v = v.isNaNFree := by
  rw [Bool.eq_iff_iff]
  exact ⟨isNaNFree_of_equal, fun hn => equal_refl hn hu⟩

/-! ### Depth -/

/-- Equal values are equally deep; one direction is enough here. -/
theorem height_le_of_equal {a b : Value} (h : a.equal b = true) : a.height ≤ b.height := by
  induction a generalizing b with
  | array as ih =>
    cases b with
    | array bs =>
      rw [equal_array_iff] at h
      refine Nat.succ_le_succ (heightItems_le_iff.2 fun a ha => ?_)
      obtain ⟨b, hb, hab⟩ := exists_equal_of_mem h ha
      exact Nat.le_trans (ih a ha hab) (heightItems_le_iff.1 (Nat.le_refl _) b hb)
    | _ => simp [equal] at h
  | object as ih =>
    cases b with
    | object bs =>
      rw [equal_object_iff] at h
      refine Nat.succ_le_succ (heightEntries_le_iff.2 fun e he => ?_)
      obtain ⟨b, hb, hab⟩ := h.2 e he
      exact Nat.le_trans (ih e he hab)
        (heightEntries_le_iff.1 (Nat.le_refl _) _ (Fields.mem_of_get?_eq_some hb))
    | _ => simp [equal] at h
  | _ => exact Nat.zero_le _

/-- A part of a container is less deep. -/
theorem height_lt_of_child? {root child : Value} {s : Segment} (hs : s ≠ .current)
    (h : root.child? s = some child) : child.height < root.height := by
  rcases accepts_iff.1 (accepts_of_child? hs h) with
    ⟨fields, key, rfl, hkey⟩ | ⟨items, i, pos, rfl, rfl, hpos⟩
  · rw [child?_object hkey] at h
    exact Nat.lt_succ_of_le
      (heightEntries_le_iff.1 (Nat.le_refl _) _ (Fields.mem_of_get?_eq_some h))
  · rw [child?_array hpos] at h
    exact Nat.lt_succ_of_le (heightItems_le_iff.1 (Nat.le_refl _) _ (List.mem_of_getElem? h))

theorem height_le_of_get? {root v : Value} {steps : List Segment} (hsteps : .current ∉ steps)
    (h : Steps.get? root steps = some v) : v.height ≤ root.height := by
  induction steps generalizing root with
  | nil =>
    obtain rfl := Option.some.inj h
    exact Nat.le_refl _
  | cons s rest ih =>
    obtain ⟨hs, hrest⟩ := Segment.current_notMem_cons.1 hsteps
    obtain ⟨child, hchild, hget⟩ := Option.bind_eq_some_iff.1 h
    exact Nat.le_trans (ih hrest hget) (Nat.le_of_lt (height_lt_of_child? hs hchild))

/-- No value equals what a path leads to in it. -/
theorem not_equal_of_get? {root v : Value} {steps : List Segment} (hsteps : .current ∉ steps)
    (hne : steps ≠ []) (h : Steps.get? root steps = some v) : root.equal v = false := by
  obtain ⟨s, rest, rfl⟩ := List.exists_cons_of_ne_nil hne
  obtain ⟨hs, hrest⟩ := Segment.current_notMem_cons.1 hsteps
  obtain ⟨child, hchild, hget⟩ := Option.bind_eq_some_iff.1 h
  have hlt : v.height < root.height :=
    Nat.lt_of_le_of_lt (height_le_of_get? hrest hget) (height_lt_of_child? hs hchild)
  rw [Bool.eq_false_iff]
  exact fun heq => Nat.not_le_of_lt hlt (height_le_of_equal heq)

/-! ### One part replaced -/

/-- A value in which one part was replaced equals the value when the new part
equals the old one, and only then. -/
theorem equal_putChild {root child new : Value} {s : Segment} (hs : s ≠ .current)
    (hn : root.isNaNFree = true) (hu : root.hasUniqueKeys = true)
    (h : root.child? s = some child) :
    (root.putChild s new).equal root = new.equal child := by
  rw [Bool.eq_iff_iff]
  rcases accepts_iff.1 (accepts_of_child? hs h) with
    ⟨fields, key, rfl, hkey⟩ | ⟨items, i, pos, rfl, rfl, hpos⟩
  · -- the entry that was put is looked up under its key, and every other one is itself
    rw [isNaNFree_object_iff] at hn
    rw [hasUniqueKeys_object_iff] at hu
    rw [child?_object hkey] at h
    rw [putChild_object hkey, equal_object_iff]
    constructor
    · rintro ⟨-, hall⟩
      obtain ⟨b, hb, heq⟩ :=
        hall (key, new) (Fields.mem_of_get?_eq_some (Fields.get?_insert_self fields key new))
      obtain rfl := Option.some.inj (hb.symm.trans h)
      exact heq
    · refine fun heq => ⟨Fields.length_insert h, fun e he => ?_⟩
      rcases Fields.mem_insert he with rfl | he
      · exact ⟨child, h, heq⟩
      · exact ⟨e.2, Fields.get?_of_mem hu.1 he, equal_refl (hn e he) (hu.2 e he)⟩
  · rw [isNaNFree_array_iff] at hn
    rw [hasUniqueKeys_array_iff] at hu
    rw [child?_array hpos] at h
    obtain ⟨hlt, rfl⟩ := List.getElem?_eq_some_iff.1 h
    rw [putChild_array hpos, equal_array_iff, List.forall₂_iff_get]
    constructor
    · rintro ⟨-, hall⟩
      simpa using hall pos (by rwa [List.length_set]) hlt
    · refine fun heq => ⟨List.length_set, fun j hj hj' => ?_⟩
      by_cases hjpos : pos = j
      · subst hjpos
        simpa using heq
      · have hmem : items[j] ∈ items := List.getElem_mem hj'
        simpa [List.getElem_set_ne hjpos] using equal_refl (hn _ hmem) (hu _ hmem)

end Value

/-- A document in which a part was replaced equals the document when the new part
equals the old one, and only then. -/
theorem Steps.equal_replace {root old new : Value} {steps : List Segment}
    (hsteps : .current ∉ steps) (hn : root.isNaNFree = true) (hu : root.hasUniqueKeys = true)
    (h : Steps.get? root steps = some old) :
    (Steps.replace root steps new).equal root = new.equal old := by
  induction steps generalizing root with
  | nil => rw [← Option.some.inj h, Steps.replace]
  | cons s rest ih =>
    obtain ⟨hs, hrest⟩ := Segment.current_notMem_cons.1 hsteps
    obtain ⟨child, hchild, hget⟩ := Option.bind_eq_some_iff.1 h
    rw [Steps.replace_cons hchild, Value.equal_putChild hs hn hu hchild]
    exact ih hrest (Value.stable_isNaNFree.child? hn hchild)
      (Value.stable_hasUniqueKeys.child? hu hchild) hget

/-! ### One part removed -/

namespace Value

/-- Arrays that are equal are equally long. -/
theorem not_equal_of_length {as bs : List Value} (h : as.length ≠ bs.length) :
    equalItems as bs = false := by
  rw [Bool.eq_false_iff]
  exact fun heq => h (equalItems_iff.1 heq).length_eq

/-- A container is another value without one of its parts. -/
theorem not_equal_dropChild? {root old rest : Value} {s : Segment}
    (h : root.dropChild? s = some (old, rest)) : rest.equal root = false := by
  cases root with
  | object fields =>
    simp only [dropChild?, Option.bind_eq_some_iff, Option.map_eq_some_iff, Prod.mk.injEq] at h
    obtain ⟨key, -, v, hget, -, rfl⟩ := h
    rw [Bool.eq_false_iff]
    exact fun heq => Fields.length_erase_ne hget (equal_object_iff.1 heq).1
  | array items =>
    cases s with
    | index i =>
      simp only [dropChild?, Option.bind_eq_some_iff, Option.map_eq_some_iff, Prod.mk.injEq] at h
      obtain ⟨pos, hpos, v, -, -, rfl⟩ := h
      have hlt : pos < items.length := lt_of_position? hpos
      have hlength := List.length_eraseIdx_of_lt hlt
      exact not_equal_of_length (by omega)
    | _ => cases h
  | _ => cases h

end Value

/-- A document does not equal itself without one of its parts. -/
theorem Steps.not_equal_erase? {root gone after : Value} {steps : List Segment}
    (hsteps : .current ∉ steps) (hn : root.isNaNFree = true) (hu : root.hasUniqueKeys = true)
    (h : Steps.erase? root steps = some (gone, after)) : after.equal root = false := by
  induction steps generalizing root after with
  | nil => cases h
  | cons s rest ih =>
    obtain ⟨hs, hrest⟩ := Segment.current_notMem_cons.1 hsteps
    by_cases hnil : rest = []
    · subst hnil
      exact Value.not_equal_dropChild? h
    · obtain ⟨child, without, hchild, herase, rfl⟩ := Steps.erase?_cons hnil h
      rw [Value.equal_putChild hs hn hu hchild]
      exact ih hrest (Value.stable_isNaNFree.child? hn hchild)
        (Value.stable_hasUniqueKeys.child? hu hchild) herase

end MetadataRules
