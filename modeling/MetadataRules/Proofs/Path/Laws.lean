/-
MetadataRules/Proofs/Path/Laws.lean

Reading, writing and removing, told by one another.

The three follow a path each in its own way, and they meet in what the path
leads to.  A write is read back, answers with what was read before, and counts
for nothing after the next write (`Steps.set_set`).  A removal takes what can be read
(`Steps.exists_erase?_iff`), and it is the removal of one part of the container
that the steps before the last one lead to, which closes up behind it
(`Steps.loses_of_erase?`).
-/
import MetadataRules.Proofs.Path.Assign
import MetadataRules.Proofs.Path.Overlap
import MetadataRules.Proofs.Rule.WellFormed
import MetadataRules.Run.Operation

namespace MetadataRules

/-! ### What is left of a container -/

/-- An entry is removed from between its neighbours. -/
theorem Fields.exists_append_of_get? {α : Type} {fs : Fields α} {key : String} {v : α}
    (h : get? fs key = some v) :
    ∃ front back, fs = front ++ (key, v) :: back ∧ erase fs key = front ++ back := by
  induction fs with
  | nil => cases h
  | cons e rest ih =>
    obtain ⟨k, w⟩ := e
    rw [get?] at h
    split at h
    · rename_i hk
      rw [← hk, ← Option.some.inj h]
      exact ⟨[], rest, rfl, if_pos rfl⟩
    · rename_i hk
      obtain ⟨front, back, hrest, herase⟩ := ih h
      exact ⟨(k, w) :: front, back, congrArg _ hrest, by rw [erase, if_neg hk, herase]; rfl⟩

namespace Value

variable {root gone rest : Value} {s : Segment}

/-- A container loses one part and keeps the others in their order: the entry of the key that a
segment names, or the element at the position that an index stands for. -/
inductive Loses : Value → Segment → Value → Value → Prop
  | entry {s : Segment} {key : String} (hkey : s.key? = some key) (gone : Value)
      (front back : Fields Value) :
      Loses (.object (front ++ (key, gone) :: back)) s gone (.object (front ++ back))
  | element {i : Int} {pos : Nat} {gone : Value} {items : List Value}
      (hpos : position? i items.length = some pos) (hgone : items[pos]? = some gone) :
      Loses (.array items) (.index i) gone (.array (items.eraseIdx pos))

theorem loses_of_dropChild? (h : root.dropChild? s = some (gone, rest)) :
    root.Loses s gone rest := by
  cases root with
  | object fields =>
    simp only [dropChild?, Option.bind_eq_some_iff, Option.map_eq_some_iff, Prod.mk.injEq] at h
    obtain ⟨key, hkey, v, hget, rfl, rfl⟩ := h
    obtain ⟨front, back, rfl, herase⟩ := Fields.exists_append_of_get? hget
    rw [herase]
    exact .entry hkey v front back
  | array items =>
    cases s with
    | index i =>
      simp only [dropChild?, Option.bind_eq_some_iff, Option.map_eq_some_iff, Prod.mk.injEq] at h
      obtain ⟨pos, hpos, v, hget, rfl, rfl⟩ := h
      exact .element hpos hget
    | _ => cases h
  | _ => cases h

end Value

/-! ### Along the steps -/

namespace Steps

variable {root v w : Value} {old : Option Value} {steps : List Segment}

/-- Of two values put at a place the second one stays. -/
theorem replace_replace {old : Value} (h : get? root steps = some old) :
    replace (replace root steps v) steps w = replace root steps w := by
  induction steps generalizing root with
  | nil => rfl
  | cons s rest ih =>
    obtain ⟨child, hchild, hbelow⟩ := Option.bind_eq_some_iff.1 h
    rw [replace_cons hchild, replace_cons hchild]
    by_cases hs : s = .current
    · subst hs
      obtain rfl := Option.some.inj hchild
      exact ih hbelow
    · have hacc := Value.accepts_of_child? hs hchild
      rw [replace_cons (Value.child?_putChild_self hacc), Value.putChild_putChild hacc, ih hbelow]

/-- A part that was written gives way to the next one. -/
theorem replace_set (h : Fits old steps) :
    replace (set old steps v).value steps w = (set old steps w).value := by
  -- a step of the second write meets the part that the first write put there
  induction h with
  | nil => rfl
  | cons hacc hrest ih =>
    rw [set_cons_of_accepts hacc, set_cons_of_accepts hacc,
      replace_cons (Value.child?_putChild_self hacc), Value.putChild_putChild hacc, ih]

/-- **Of two writes the second one counts**, and it finds what the first one wrote. -/
theorem set_set (hsteps : .current ∉ steps) (h : Fits old steps) :
    set (some (set old steps v).value) steps w = ⟨(set old steps w).value, .ok (some v)⟩ := by
  have hget : get? (set old steps v).value steps = some v := get?_set_self (answer_set hsteps h)
  rw [set_of_get? hsteps hget, replace_set h]

theorem ne_nil_of_erase? {e : Value × Value} (h : erase? root steps = some e) : steps ≠ [] := by
  rintro rfl
  cases h

/-- **What can be read below the root can be removed**, and nothing else. -/
theorem exists_erase?_iff (hsteps : .current ∉ steps) :
    (∃ after, erase? root steps = some (v, after)) ↔ steps ≠ [] ∧ get? root steps = some v := by
  constructor
  · rintro ⟨after, herase⟩
    exact ⟨ne_nil_of_erase? herase, get?_of_erase? herase⟩
  · rintro ⟨hne, hget⟩
    exact exists_erase? hne hsteps hget

/-- **A removal takes one part out of the container of the last step**, and that is all that
changes.  In an object, what was removed is not found again. -/
theorem loses_of_erase? {gone after : Value} (hroot : root.hasUniqueKeys = true)
    (h : erase? root steps = some (gone, after)) :
    ∃ place s before rest, steps = place ++ [s] ∧ get? root place = some before ∧
      before.Loses s gone rest ∧ after = replace root place rest ∧
      (before.kind = .object → get? after steps = none) := by
  obtain ⟨place, s, rfl⟩ := (List.eq_nil_or_concat' steps).resolve_left (ne_nil_of_erase? h)
  obtain ⟨before, rest, hbefore, hdrop, rfl⟩ := eq_replace_of_erase? h
  refine ⟨place, s, before, rest, rfl, hbefore, Value.loses_of_dropChild? hdrop, rfl,
    fun hobject => ?_⟩
  have hkeys := Value.stable_hasUniqueKeys.get? hroot hbefore
  cases before with
  | object fields =>
    rw [get?_append, get?_replace_self hbefore, Option.bind_some, get?_cons,
      Value.child?_of_dropChild?_object hkeys hdrop rfl]
    rfl
  | _ => cases hobject

end Steps

/-! ### The laws -/

/-- **The laws of a path** that has `@` in the first place only.

* What was written is read back, the answer is what was read before, and a second write answers
  with the first value and leaves what it would have left without the first write.
* What is below the root and can be read is what can be removed, and where nothing is removed
  the document stays what it was.
* A removal takes one part out of its container, which is all that changes.  No entry is found
  again where one was removed. -/
theorem Path.access_laws {p : Path} (hp : .current ∉ p.segments.tail) {root : Value}
    (hroot : root.hasUniqueKeys = true) (v w : Value) :
    (∀ prev, (p.set root v).answer = .ok prev →
      p.get? (p.set root v).value = some v ∧ prev = p.get? root ∧
        (p.set root w).answer = .ok prev ∧
        p.set (p.set root v).value w = ⟨(p.set root w).value, .ok (some v)⟩) ∧
    ((∀ x, (∃ after, p.erase? root = some (x, after)) ↔ p.steps ≠ [] ∧ p.get? root = some x) ∧
      (p.erase? root = none → Run.without p root = root)) ∧
    ∀ x after, p.erase? root = some (x, after) →
      ∃ place s before rest, p.steps = place ++ [s] ∧ Steps.get? root place = some before ∧
        before.Loses s x rest ∧ after = Steps.replace root place rest ∧
        (before.kind = .object → p.get? after = none) := by
  have hsteps := Path.current_notMem_steps hp
  refine ⟨fun prev hprev => ?_, ⟨fun x => Steps.exists_erase?_iff hsteps, fun hnone => ?_⟩,
    fun x after => Steps.loses_of_erase? hroot⟩
  · have hfits : Steps.Fits (some root) p.steps := Steps.isOk_set_iff.1 (congrArg Except.isOk hprev)
    have hanswer : ∀ u, (p.set root u).answer = .ok (p.get? root) := fun u =>
      Steps.answer_set hsteps hfits
    obtain rfl : p.get? root = prev := Except.ok.inj ((hanswer v).symm.trans hprev)
    exact ⟨Steps.get?_set_self hprev, rfl, hanswer w, Steps.set_set hsteps hfits⟩
  · rw [Run.without, hnone]

/-- A step from the end of an array, and one into an object whose key is a number. -/
theorem Path.access_laws_index :
    let p : Path := ⟨[.key "a", .index (-1), .index 0]⟩
    let root : Value := .object [("a", .array [.null, .object [("0", .string "x"), ("k", .null)]])]
    let after : Value := .object [("a", .array [.null, .object [("k", .null)]])]
    (.current ∉ p.segments.tail ∧ root.hasUniqueKeys = true ∧
        (p.set root .null).answer = .ok (some (.string "x")) ∧
        p.erase? root = some (.string "x", after)) ∧
      p.get? (p.set root .null).value = some .null ∧
      p.set (p.set root .null).value (.boolean true) =
        ⟨(p.set root (.boolean true)).value, .ok (some .null)⟩ ∧
      p.get? root = some (.string "x") ∧ p.get? after = none := by
  intro p root after
  have hp : .current ∉ p.segments.tail := by decide
  have hroot : root.hasUniqueKeys = true := by decide +kernel
  have hanswer : (p.set root .null).answer = .ok (some (.string "x")) := by rfl
  have herase : p.erase? root = some (.string "x", after) := by rfl
  have hlaws := Path.access_laws hp hroot .null (.boolean true)
  obtain ⟨hback, -, -, hagain⟩ := hlaws.1 _ hanswer
  have hread := ((hlaws.2.1.1 _).1 ⟨after, herase⟩).2
  obtain ⟨place, s, before, rest, hplace, hbefore, -, -, habsent⟩ := hlaws.2.2 _ _ herase
  refine ⟨⟨hp, hroot, hanswer, herase⟩, hback, hagain, hread, habsent ?_⟩
  -- the last step is a key: the steps before it lead to the object in the array
  have hsteps : p.steps = [.key "a", .index (-1)] ++ [.index 0] := rfl
  obtain ⟨rfl, -⟩ := List.append_inj' (hplace.symm.trans hsteps) rfl
  rw [← Option.some.inj hbefore]
  rfl

end MetadataRules
