/-
MetadataRules/Proofs/Path/Overlap.lean

Different paths to one place.

Two paths can lead to one place of a document without being equal: `0` and
`-1` are one element of an array of length one, and the key `"0"` and the
position `0` are one entry of an object.  `Steps.passes root place steps`
follows both through a document and tells whether `steps` comes through the
place that `place` leads to.  It decides what is read along `steps` after the
place was removed:

* `Steps.get?_erase_of_passes` — nothing, where they come through it;
* `Steps.get?_erase_of_not_passes` — what was there before, where neither path
  comes through the place of the other.

A write where nothing was leaves every place that could be read where it was
(`Steps.get?_set_of_missing`).
-/
import MetadataRules.Proofs.Path.Access
import MetadataRules.Proofs.Value.Edits

namespace MetadataRules

namespace Value

variable {root old rest v : Value} {s t : Segment} {key : String}

/-- What an object lost is not found in it again, however its key is written. -/
theorem child?_of_dropChild?_object {fields : Fields Value}
    (hu : (object fields).hasUniqueKeys = true)
    (h : (object fields).dropChild? s = some (old, rest)) (ht : t.key? = s.key?) :
    rest.child? t = none := by
  simp only [dropChild?, Option.bind_eq_some_iff, Option.map_eq_some_iff, Prod.mk.injEq] at h
  obtain ⟨key, hkey, v, -, -, rfl⟩ := h
  rw [child?_object (ht.trans hkey), Fields.get?_erase_self (hasUniqueKeys_object_iff.1 hu).1]

/-- A key that was removed names nothing, however it is written. -/
theorem child?_of_dropChild?_of_sameChild (hu : root.hasUniqueKeys = true)
    (h : root.dropChild? (.key key) = some (old, rest))
    (hsame : root.sameChild (.key key) t = true) : rest.child? t = none := by
  cases root with
  | object fields =>
    have ht : t.key? = some key := by
      simp only [sameChild, Segment.key?_key, Option.isSome_some, Bool.true_and,
        beq_iff_eq] at hsame
      exact hsame.symm
    exact child?_of_dropChild?_object hu h ht
  | _ => simp [dropChild?] at h

end Value

namespace Steps

variable {root child v w gone after : Value} {s t : Segment}
  {place steps p q : List Segment} {key : String}

/-! ### Coming through a place -/

/-- Whether following `steps` from a value comes through the place that `place` leads to. -/
def passes (root : Value) : List Segment → List Segment → Bool
  | [], _ => true
  | _ :: _, [] => false
  | s :: place, t :: steps =>
    root.sameChild s t &&
      match root.child? s with
      | some child => passes child place steps
      | none => false

@[simp] theorem passes_nil : passes root [] steps = true := by
  rw [passes]

theorem passes_cons (hsame : root.sameChild s t = true) (hchild : root.child? s = some child) :
    passes root (s :: place) (t :: steps) = passes child place steps := by
  simp [passes, hsame, hchild]

theorem passes_cons_of_not_sameChild (hsame : root.sameChild s t = false) :
    passes root (s :: place) (t :: steps) = false := by
  simp [passes, hsame]

/-- Coming through a place below a part is coming through it in that part. -/
theorem exists_of_passes_cons (h : passes root (s :: place) steps = true) :
    ∃ t rest child, steps = t :: rest ∧ root.sameChild s t = true ∧
      root.child? s = some child ∧ passes child place rest = true := by
  rcases steps with - | ⟨t, rest⟩
  · cases h
  · rw [passes, Bool.and_eq_true] at h
    obtain ⟨hsame, hbelow⟩ := h
    rcases hchild : root.child? s with - | child
    · rw [hchild] at hbelow
      cases hbelow
    · rw [hchild] at hbelow
      exact ⟨t, rest, child, rfl, hsame, rfl, hbelow⟩

/-- Steps that come through a place are read from there. -/
theorem get?_of_passes (h : passes root place steps = true) :
    ∃ v, get? root place = some v ∧ get? root steps = get? v (steps.drop place.length) := by
  induction place generalizing root steps with
  | nil => exact ⟨root, rfl, rfl⟩
  | cons s place ih =>
    obtain ⟨t, rest, child, rfl, hsame, hchild, hbelow⟩ := exists_of_passes_cons h
    obtain ⟨v, hplace, hsteps⟩ := ih hbelow
    refine ⟨v, ?_, ?_⟩
    · rw [get?_cons, hchild]
      exact hplace
    · rw [get?_cons, Value.child?_eq_of_sameChild hsame, hchild]
      exact hsteps

/-- Two paths of one length that come through the same place do so both ways. -/
theorem passes_symm (hlength : steps.length ≤ place.length) (h : passes root place steps = true) :
    passes root steps place = true := by
  induction place generalizing root steps with
  | nil =>
    obtain rfl : steps = [] := List.length_eq_zero_iff.1 (Nat.le_zero.1 hlength)
    rfl
  | cons s place ih =>
    obtain ⟨t, rest, child, rfl, hsame, hchild, hbelow⟩ := exists_of_passes_cons h
    rw [passes_cons (Value.sameChild_comm.trans hsame)
      ((Value.child?_eq_of_sameChild hsame).trans hchild)]
    exact ih (Nat.le_of_succ_le_succ hlength) hbelow

/-! ### Removing -/

/-- **Nothing is read through a place that was removed.** -/
theorem get?_erase_of_passes (hu : root.hasUniqueKeys = true)
    (h : passes root (place ++ [.key key]) steps = true)
    (he : erase? root (place ++ [.key key]) = some (gone, after)) : get? after steps = none := by
  induction place generalizing root after steps with
  | nil =>
    obtain ⟨t, rest, child, rfl, hsame, -, -⟩ := exists_of_passes_cons h
    rw [get?_cons, Value.child?_of_dropChild?_of_sameChild hu he hsame]
    rfl
  | cons s place ih =>
    rw [List.cons_append] at h he
    obtain ⟨t, rest, child, rfl, hsame, hchild, hbelow⟩ := exists_of_passes_cons h
    obtain ⟨child', without, hchild', herase, rfl⟩ := erase?_cons (by simp) he
    obtain rfl : child' = child := Option.some.inj (hchild'.symm.trans hchild)
    rw [get?_cons, Value.child?_putChild_of_sameChild hsame]
    exact ih (Value.stable_hasUniqueKeys.child? hu hchild) hbelow herase

/-- The value of a key is removed once. -/
theorem erase?_erase (hplace : .current ∉ place) (hu : root.hasUniqueKeys = true)
    (he : erase? root (place ++ [.key key]) = some (gone, after)) :
    erase? after (place ++ [.key key]) = none := by
  induction place generalizing root after with
  | nil =>
    have hchild : root.child? (.key key) = some gone := Value.child?_of_dropChild?_self he
    have hsame := Value.sameChild_self.trans
      (Value.accepts_of_child? (Segment.key_ne_current key) hchild)
    have hmissing := Value.child?_of_dropChild?_of_sameChild hu he hsame
    rcases hdrop : after.dropChild? (.key key) with - | ⟨v, rest⟩
    · exact hdrop
    · rw [Value.child?_of_dropChild?_self hdrop] at hmissing
      cases hmissing
  | cons s place ih =>
    obtain ⟨hs, hbelow⟩ := Segment.current_notMem_cons.1 hplace
    rw [List.cons_append] at he
    obtain ⟨child, without, hchild, herase, rfl⟩ := erase?_cons (by simp) he
    have hagain := ih hbelow (Value.stable_hasUniqueKeys.child? hu hchild) herase
    rw [List.cons_append, erase?_cons_of_ne_nil (by simp),
      Value.child?_putChild_self (Value.accepts_of_child? hs hchild), Option.bind_some, hagain]
    rfl

/-- **What does not come through a place that was removed is read as before**, unless
the place lies inside it. -/
theorem get?_erase_of_not_passes (hplace : .current ∉ place) (hsteps : .current ∉ steps)
    (h : passes root (place ++ [.key key]) steps = false)
    (h' : passes root steps (place ++ [.key key]) = false)
    (he : erase? root (place ++ [.key key]) = some (gone, after)) :
    get? after steps = get? root steps := by
  induction place generalizing root after steps with
  | nil =>
    rcases steps with - | ⟨t, steps⟩
    · cases h'
    · obtain ⟨ht, -⟩ := Segment.current_notMem_cons.1 hsteps
      have hchild : root.child? (.key key) = some gone := Value.child?_of_dropChild?_self he
      cases hsame : root.sameChild (.key key) t with
      | false => rw [get?_cons, get?_cons, Value.child?_of_dropChild? he ht hsame]
      | true =>
        rw [List.nil_append, passes_cons hsame hchild, passes_nil] at h
        cases h
  | cons s place ih =>
    obtain ⟨hs, hbelow⟩ := Segment.current_notMem_cons.1 hplace
    rcases steps with - | ⟨t, steps⟩
    · cases h'
    · obtain ⟨ht, hrest⟩ := Segment.current_notMem_cons.1 hsteps
      rw [List.cons_append] at h h' he
      obtain ⟨child, without, hchild, herase, rfl⟩ := erase?_cons (by simp) he
      cases hsame : root.sameChild s t with
      | false =>
        -- the paths part here, and another part was changed
        rw [get?_cons, get?_cons,
          Value.child?_putChild_of_not_sameChild (Value.accepts_of_child? hs hchild) ht hsame]
      | true =>
        have hchild' := (Value.child?_eq_of_sameChild hsame).trans hchild
        rw [passes_cons hsame hchild] at h
        rw [passes_cons (Value.sameChild_comm.trans hsame) hchild'] at h'
        rw [get?_cons, get?_cons, Value.child?_putChild_of_sameChild hsame, hchild']
        exact ih hbelow hrest h h' herase

/-- A removal drops a part of the container that the steps before the last one lead to, and
changes nothing else. -/
theorem eq_replace_of_erase? (he : erase? root (place ++ [s]) = some (gone, after)) :
    ∃ parent rest, get? root place = some parent ∧ parent.dropChild? s = some (gone, rest) ∧
      after = replace root place rest := by
  induction place generalizing root after with
  | nil => exact ⟨root, after, rfl, he, rfl⟩
  | cons t place ih =>
    rw [List.cons_append] at he
    obtain ⟨child, without, hchild, herase, rfl⟩ := erase?_cons (by simp) he
    obtain ⟨parent, rest, hparent, hdrop, rfl⟩ := ih herase
    refine ⟨parent, rest, ?_, hdrop, (replace_cons hchild).symm⟩
    rw [get?_cons, hchild]
    exact hparent

/-- What is dropped from the container that the steps lead to is removed. -/
theorem erase?_concat {parent rest : Value} (h : get? root place = some parent)
    (hdrop : parent.dropChild? s = some (gone, rest)) :
    erase? root (place ++ [s]) = some (gone, replace root place rest) := by
  induction place generalizing root with
  | nil =>
    obtain rfl := Option.some.inj h
    exact hdrop
  | cons t place ih =>
    obtain ⟨child, hchild, hget⟩ := Option.bind_eq_some_iff.1 h
    rw [List.cons_append, erase?_cons_of_ne_nil (by simp), hchild, Option.bind_some, ih hget,
      replace_cons hchild]
    rfl

/-- What is left where something was removed is the container without it. -/
theorem exists_dropChild?_of_erase? (he : erase? root (place ++ [s]) = some (gone, after)) :
    ∃ parent rest, get? root place = some parent ∧ parent.dropChild? s = some (gone, rest) ∧
      get? after place = some rest := by
  obtain ⟨parent, rest, hparent, hdrop, rfl⟩ := eq_replace_of_erase? he
  exact ⟨parent, rest, hparent, hdrop, get?_replace_self hparent⟩

/-! ### Writing -/

/-- **A write where nothing was keeps every other place.**  What could be read can
still be read, the new value comes through the same places as its path did, and it
does not hold any of them. -/
theorem get?_set_of_missing (new : Value) (hp : .current ∉ p) (hq : .current ∉ q)
    (hget : get? root p = some v) (hmissing : get? root q = none) :
    (∃ w, get? (set (some root) q new).value p = some w) ∧
      passes (set (some root) q new).value p q = passes root p q ∧
      passes (set (some root) q new).value q p = false := by
  induction p generalizing root q with
  | nil =>
    rcases q with - | ⟨t, q⟩
    · cases hmissing
    · exact ⟨⟨_, rfl⟩, by simp, rfl⟩
  | cons s p ih =>
    rcases q with - | ⟨t, q⟩
    · cases hmissing
    · obtain ⟨hs, hp'⟩ := Segment.current_notMem_cons.1 hp
      obtain ⟨ht, hq'⟩ := Segment.current_notMem_cons.1 hq
      obtain ⟨child, hchild, hbelow⟩ := Option.bind_eq_some_iff.1 hget
      have hnull : root ≠ .null := by
        rintro rfl
        cases s <;> simp_all [Value.child?]
      have hc := container_eq_self hnull
      cases hacc : root.accepts t with
      | false =>
        -- nothing is written
        obtain ⟨r, hset⟩ := set_cons_of_not_accepts q new (hc.symm ▸ hacc)
        have hsame : root.sameChild t s = false := by
          rw [Bool.eq_false_iff]
          intro hsame
          rw [Value.accepts_of_sameChild hsame] at hacc
          cases hacc
        rw [hset, hc]
        exact ⟨⟨v, hget⟩, rfl, passes_cons_of_not_sameChild hsame⟩
      | true =>
        rw [set_cons_of_accepts (hc.symm ▸ hacc), hc]
        cases hsame : root.sameChild s t with
        | false =>
          -- the write goes into another part
          have hsame' : root.sameChild t s = false := Value.sameChild_comm.trans hsame
          refine ⟨⟨v, ?_⟩, ?_, ?_⟩
          · rw [get?_cons, Value.child?_putChild_of_not_sameChild hacc hs hsame', hchild]
            exact hbelow
          · rw [passes_cons_of_not_sameChild hsame,
              passes_cons_of_not_sameChild ((Value.sameChild_putChild hacc).trans hsame)]
          · exact passes_cons_of_not_sameChild ((Value.sameChild_putChild hacc).trans hsame')
        | true =>
          -- the write goes on in the part that `p` leads into
          have hsame' : root.sameChild t s = true := Value.sameChild_comm.trans hsame
          have hchild' := (Value.child?_eq_of_sameChild hsame).trans hchild
          rw [get?_cons, hchild', Option.bind_some] at hmissing
          obtain ⟨⟨w, hw⟩, hpq, hqp⟩ := ih hp' hq' hbelow hmissing
          rw [hchild']
          refine ⟨⟨w, ?_⟩, ?_, ?_⟩
          · rw [get?_cons, Value.child?_putChild_of_sameChild hsame']
            exact hw
          · rw [passes_cons hsame hchild, passes_cons ((Value.sameChild_putChild hacc).trans hsame)
              (Value.child?_putChild_of_sameChild hsame')]
            exact hpq
          · rw [passes_cons ((Value.sameChild_putChild hacc).trans hsame')
              (Value.child?_putChild_self hacc)]
            exact hqp

/-- A write where nothing was makes no array, and none longer or shorter. -/
theorem exists_array_of_get?_set {items : List Value} (new : Value) (hp : .current ∉ p)
    (hq : .current ∉ q) (hget : get? root p = some v) (hmissing : get? root q = none)
    (h : get? (set (some root) q new).value p = some (.array items)) :
    ∃ before, v = .array before ∧ before.length = items.length := by
  induction p generalizing root q with
  | nil =>
    rcases q with - | ⟨t, q⟩
    · cases hmissing
    obtain rfl := Option.some.inj hget
    have hafter := Option.some.inj h
    cases hacc : (container (some root)).accepts t with
    | false =>
      obtain ⟨r, hset⟩ := set_cons_of_not_accepts q new hacc
      rw [hset] at hafter
      cases root <;> cases hafter
      exact ⟨_, rfl, rfl⟩
    | true =>
      rw [set_cons_of_accepts hacc] at hafter
      rcases Value.accepts_iff.1 hacc with
        ⟨fields, key, hc, hkey⟩ | ⟨before, i, pos, hc, rfl, hpos⟩
      · rw [hc, Value.putChild_object hkey] at hafter
        cases hafter
      · rw [hc, Value.putChild_array hpos] at hafter
        obtain rfl := Value.array.inj hafter
        cases root <;> cases hc
        exact ⟨_, rfl, (List.length_set).symm⟩
  | cons s p ih =>
    rcases q with - | ⟨t, q⟩
    · cases hmissing
    obtain ⟨hs, hp'⟩ := Segment.current_notMem_cons.1 hp
    obtain ⟨-, hq'⟩ := Segment.current_notMem_cons.1 hq
    obtain ⟨child, hchild, hbelow⟩ := Option.bind_eq_some_iff.1 hget
    have hc := container_of_accepts (Value.accepts_of_child? hs hchild)
    cases hacc : root.accepts t with
    | false =>
      obtain ⟨r, hset⟩ := set_cons_of_not_accepts q new (hc.symm ▸ hacc)
      rw [hset, hc, hget] at h
      exact ⟨items, Option.some.inj h, rfl⟩
    | true =>
      rw [set_cons_of_accepts (hc.symm ▸ hacc), hc] at h
      cases hsame : root.sameChild t s with
      | false =>
        rw [get?_cons, Value.child?_putChild_of_not_sameChild hacc hs hsame, ← get?_cons,
          hget] at h
        exact ⟨items, Option.some.inj h, rfl⟩
      | true =>
        have hchild' := (Value.child?_eq_of_sameChild (Value.sameChild_comm.trans hsame)).trans
          hchild
        rw [get?_cons, Value.child?_putChild_of_sameChild hsame, Option.bind_some, hchild'] at h
        rw [get?_cons, hchild', Option.bind_some] at hmissing
        exact ih hp' hq' hbelow hmissing h

end Steps

/-- A step behind a path is its last step. -/
theorem Path.steps_concat (p : Path) {s : Segment} (hs : s ≠ .current) :
    Path.steps ⟨p.segments ++ [s]⟩ = p.steps ++ [s] := by
  obtain ⟨segments⟩ := p
  rcases segments with - | ⟨- | - | -, rest⟩
  · cases s <;> first | rfl | exact absurd rfl hs
  all_goals rfl

end MetadataRules
