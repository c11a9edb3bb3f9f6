/-
MetadataRules/Proofs/Path/Access.lean

Reading a value after a change along a path.

One step of a path either has a place in the value it meets (`Value.accepts`)
or it has none.  Where it has one, a part that is put there is the part that
is read there, and every other part stays what it was.  So a write is
described one step at a time (`Steps.set_cons_of_accepts`,
`Steps.set_cons_of_not_accepts`), without a word about objects and arrays, and
the laws of whole paths are inductions over their steps:

* `Steps.value_set_of_error` — a refused write leaves the value as it was,
  although it makes objects and replaces `null` on its way down: from the first
  object it makes, no later step is refused (`Steps.answer_set_none`);
* `Steps.get?_set_self` — an accepted write is read back;
* `Steps.set_of_get?`, `Steps.set_eq_self` — a write where something is puts the new
  value in its place, and a write of what is there already changes nothing;
* `Steps.get?_replace_self`, `Steps.replace_eq_self` — what `replace` puts is
  read back, and putting what is there already changes nothing.
-/
import MetadataRules.Path.Access

namespace MetadataRules

namespace Value

variable {root child new old rest : Value} {s t : Segment}

/-! ### Places of one step -/

/-- The value is a container with a place for a segment: any key of an object, a
position that an array has. -/
def accepts : Value → Segment → Bool
  | .object _, s => s.key?.isSome
  | .array items, .index i => (position? i items.length).isSome
  | _, _ => false

/-- Two segments that lead to the same entry of an object or the same element of an array. -/
def sameChild : Value → Segment → Segment → Bool
  | .object _, s, t => s.key?.isSome && s.key? == t.key?
  | .array items, .index i, .index j =>
    (position? i items.length).isSome && position? i items.length == position? j items.length
  | _, _, _ => false

theorem child?_object {fields : Fields Value} {key : String} (hs : s.key? = some key) :
    (object fields).child? s = Fields.get? fields key := by
  cases s with
  | current => simp [Segment.key?] at hs
  | key name => simp [child?, hs]
  | index i => simp [child?, hs]

theorem putChild_object {fields : Fields Value} {key : String} (hs : s.key? = some key) :
    (object fields).putChild s new = object (Fields.insert fields key new) := by
  cases s with
  | current => simp [Segment.key?] at hs
  | key name => simp [putChild, hs]
  | index i => simp [putChild, hs]

theorem child?_array {items : List Value} {i : Int} {pos : Nat}
    (h : position? i items.length = some pos) :
    (array items).child? (.index i) = items[pos]? := by
  simp [child?, h]

theorem putChild_array {items : List Value} {i : Int} {pos : Nat}
    (h : position? i items.length = some pos) :
    (array items).putChild (.index i) new = array (items.set pos new) := by
  simp [putChild, h]

/-- The containers with a place for a segment, spelled out. -/
theorem accepts_iff :
    root.accepts s = true ↔
      (∃ fields key, root = object fields ∧ s.key? = some key) ∨
      (∃ items i pos, root = array items ∧ s = .index i ∧
        position? i items.length = some pos) := by
  cases root with
  | object fields => simp [accepts, Option.isSome_iff_exists]
  | array items => cases s <;> simp [accepts, Option.isSome_iff_exists]
  | _ => simp [accepts]

/-- An empty object has a place for every key. -/
theorem accepts_empty (hs : s ≠ .current) : (object []).accepts s = true := by
  cases s <;> simp_all [accepts, Segment.key?]

theorem accepts_of_child? (hs : s ≠ .current) (h : root.child? s = some child) :
    root.accepts s = true := by
  cases root with
  | object fields => cases s <;> simp_all [accepts, Segment.key?]
  | array items =>
    cases s with
    | index i =>
      rcases hpos : position? i items.length with - | pos
      · simp [child?, hpos] at h
      · simp [accepts, hpos]
    | key name => simp [child?] at h
    | current => exact absurd rfl hs
  | _ => cases s <;> simp_all [child?]

theorem sameChild_self : root.sameChild s s = root.accepts s := by
  cases root with
  | object fields => simp [sameChild, accepts]
  | array items => cases s <;> simp [sameChild, accepts]
  | _ => rfl

theorem accepts_of_sameChild (h : root.sameChild s t = true) : root.accepts s = true := by
  cases root with
  | object fields =>
    rw [sameChild, Bool.and_eq_true] at h
    exact h.1
  | array items =>
    cases s <;> cases t <;> simp only [sameChild, Bool.and_eq_true, Bool.false_eq_true] at h
    exact h.1
  | _ => cases h

theorem sameChild_comm : root.sameChild s t = root.sameChild t s := by
  cases root with
  | object fields =>
    rw [Bool.eq_iff_iff]
    simp only [sameChild, Bool.and_eq_true, beq_iff_eq]
    constructor <;> rintro ⟨hs, heq⟩ <;> exact ⟨heq ▸ hs, heq.symm⟩
  | array items =>
    rw [Bool.eq_iff_iff]
    cases s <;> cases t <;> simp only [sameChild, Bool.and_eq_true, beq_iff_eq]
    constructor <;> rintro ⟨hs, heq⟩ <;> exact ⟨heq ▸ hs, heq.symm⟩
  | _ => rfl

/-! ### One change, one step -/

theorem child?_eq_of_sameChild (h : root.sameChild s t = true) :
    root.child? t = root.child? s := by
  cases root with
  | object fields =>
    simp only [sameChild, Bool.and_eq_true, beq_iff_eq, Option.isSome_iff_exists] at h
    obtain ⟨⟨key, hs⟩, heq⟩ := h
    rw [child?_object hs, child?_object (heq ▸ hs)]
  | array items =>
    cases s <;> cases t <;> simp only [sameChild, Bool.and_eq_true, beq_iff_eq,
      Bool.false_eq_true, Option.isSome_iff_exists] at h
    obtain ⟨⟨pos, hs⟩, heq⟩ := h
    rw [child?_array hs, child?_array (heq ▸ hs)]
  | _ => simp [sameChild] at h

/-- A part that is put where a segment leads is read where the same place is named. -/
theorem child?_putChild_of_sameChild (h : root.sameChild s t = true) :
    (root.putChild s new).child? t = some new := by
  cases root with
  | object fields =>
    simp only [sameChild, Bool.and_eq_true, beq_iff_eq, Option.isSome_iff_exists] at h
    obtain ⟨⟨key, hs⟩, heq⟩ := h
    rw [putChild_object hs, child?_object (heq ▸ hs), Fields.get?_insert_self]
  | array items =>
    cases s <;> cases t <;> simp only [sameChild, Bool.and_eq_true, beq_iff_eq,
      Bool.false_eq_true, Option.isSome_iff_exists] at h
    obtain ⟨⟨pos, hs⟩, heq⟩ := h
    rename_i i j
    have hlt : pos < items.length := lt_of_position? hs
    have ht : position? j (items.set pos new).length = some pos := by
      rw [List.length_set, ← heq, hs]
    rw [putChild_array hs, child?_array ht, List.getElem?_set_self hlt]
  | _ => simp [sameChild] at h

theorem child?_putChild_self (h : root.accepts s = true) :
    (root.putChild s new).child? s = some new :=
  child?_putChild_of_sameChild (sameChild_self.trans h)

/-- Any other part stays what it was. -/
theorem child?_putChild_of_not_sameChild (hs : root.accepts s = true) (ht : t ≠ .current)
    (h : root.sameChild s t = false) : (root.putChild s new).child? t = root.child? t := by
  rcases accepts_iff.1 hs with ⟨fields, key, rfl, hkey⟩ | ⟨items, i, pos, rfl, rfl, hpos⟩
  · obtain ⟨other, hother⟩ : ∃ other, t.key? = some other := by
      cases t <;> simp_all [Segment.key?]
    have hne : other ≠ key := by
      rintro rfl
      simp [sameChild, hkey, hother] at h
    rw [putChild_object hkey, child?_object hother, child?_object hother,
      Fields.get?_insert_of_ne _ _ hne]
  · rw [putChild_array hpos]
    cases t with
    | key name => rfl
    | current => exact absurd rfl ht
    | index j =>
      simp only [sameChild, hpos, Option.isSome_some, Bool.true_and, beq_eq_false_iff_ne] at h
      rcases hj : position? j items.length with - | pos'
      · simp [child?, hj]
      · have hne : pos ≠ pos' := fun he => h (by rw [hj, he])
        simp [child?, hj, List.getElem?_set_ne hne]

/-- Removing the entry of a key leaves every other part what it was. -/
theorem child?_of_dropChild? {key : String} (h : root.dropChild? (.key key) = some (old, rest))
    (ht : t ≠ .current) (hne : root.sameChild (.key key) t = false) :
    rest.child? t = root.child? t := by
  cases root with
  | object fields =>
    obtain ⟨other, hother⟩ : ∃ other, t.key? = some other := by
      cases t <;> simp_all [Segment.key?]
    have hkey : other ≠ key := by
      rintro rfl
      simp [sameChild, hother] at hne
    simp only [dropChild?, Segment.key?_key, Option.bind_some, Option.map_eq_some_iff,
      Prod.mk.injEq] at h
    obtain ⟨v, -, -, rfl⟩ := h
    rw [child?_object hother, child?_object hother, Fields.get?_erase_of_ne _ hkey]
  | _ => simp [dropChild?] at h

/-- What is removed is what was there. -/
theorem child?_of_dropChild?_self (h : root.dropChild? s = some (old, rest)) :
    root.child? s = some old := by
  cases root with
  | object fields =>
    simp only [dropChild?, Option.bind_eq_some_iff, Option.map_eq_some_iff, Prod.mk.injEq] at h
    obtain ⟨key, hkey, v, hget, rfl, -⟩ := h
    rw [child?_object hkey, hget]
  | array items =>
    cases s with
    | index i =>
      simp only [dropChild?, Option.bind_eq_some_iff, Option.map_eq_some_iff,
        Prod.mk.injEq] at h
      obtain ⟨pos, hpos, v, hget, rfl, -⟩ := h
      rw [child?_array hpos, hget]
    | _ => cases h
  | _ => cases h

/-- What is there can be removed. -/
theorem exists_dropChild? (hs : s ≠ .current) (h : root.child? s = some child) :
    ∃ rest, root.dropChild? s = some (child, rest) := by
  rcases accepts_iff.1 (accepts_of_child? hs h) with
    ⟨fields, key, rfl, hkey⟩ | ⟨items, i, pos, rfl, rfl, hpos⟩
  · rw [child?_object hkey] at h
    exact ⟨.object (Fields.erase fields key), by simp [dropChild?, hkey, h]⟩
  · rw [child?_array hpos] at h
    exact ⟨.array (items.eraseIdx pos), by simp [dropChild?, hpos, h]⟩

/-- Putting the part that is there already changes nothing. -/
theorem putChild_eq_self (h : root.child? s = some child) : root.putChild s child = root := by
  by_cases hs : s = .current
  · subst hs
    simpa [child?, putChild] using h.symm
  · rcases accepts_iff.1 (accepts_of_child? hs h) with
      ⟨fields, key, rfl, hkey⟩ | ⟨items, i, pos, rfl, rfl, hpos⟩
    · rw [child?_object hkey] at h
      rw [putChild_object hkey, Fields.insert_eq_self h]
    · rw [child?_array hpos, List.getElem?_eq_some_iff] at h
      obtain ⟨hlt, rfl⟩ := h
      rw [putChild_array hpos, List.set_getElem_self hlt]

/-- Which segments name one place does not depend on what stands there. -/
theorem sameChild_putChild {a b : Segment} (h : root.accepts s = true) :
    (root.putChild s new).sameChild a b = root.sameChild a b := by
  rcases accepts_iff.1 h with ⟨fields, key, rfl, hkey⟩ | ⟨items, i, pos, rfl, rfl, hpos⟩
  · rw [putChild_object hkey]
    rfl
  · rw [putChild_array hpos]
    cases a <;> cases b <;> simp [sameChild]

end Value

namespace Steps

variable {root child new : Value} {old : Option Value} {s : Segment} {steps rest : List Segment}

/-! ### Reading -/

theorem get?_cons : get? root (s :: rest) = (root.child? s).bind fun child => get? child rest :=
  rfl

theorem get?_append (root : Value) (steps rest : List Segment) :
    get? root (steps ++ rest) = (get? root steps).bind fun v => get? v rest := by
  induction steps generalizing root with
  | nil => rfl
  | cons s steps ih =>
    rw [List.cons_append, get?_cons, get?_cons]
    rcases root.child? s with - | child
    · rfl
    · exact ih child

/-- A key of the object that a path leads to. -/
theorem get?_concat_key {fields : Fields Value} (h : get? root steps = some (.object fields))
    (key : String) : get? root (steps ++ [.key key]) = Fields.get? fields key := by
  rw [get?_append, h, Option.bind_some, get?_cons, Value.child?_object (Segment.key?_key key)]
  rcases Fields.get? fields key with - | v <;> rfl

/-! ### Removing -/

/-- Removing below a part is removing in that part. -/
theorem erase?_cons_of_ne_nil (h : rest ≠ []) :
    erase? root (s :: rest) = (root.child? s).bind fun child =>
      (erase? child rest).map fun (old, without) => (old, root.putChild s without) := by
  cases rest with
  | nil => exact absurd rfl h
  | cons t rest => rfl

/-- A removal below a part has removed in that part. -/
theorem erase?_cons {gone after : Value} (hne : rest ≠ [])
    (h : erase? root (s :: rest) = some (gone, after)) :
    ∃ child without, root.child? s = some child ∧
      erase? child rest = some (gone, without) ∧ after = root.putChild s without := by
  rw [erase?_cons_of_ne_nil hne, Option.bind_eq_some_iff] at h
  obtain ⟨child, hchild, hmap⟩ := h
  obtain ⟨⟨gone', without⟩, hbelow, heq⟩ := Option.map_eq_some_iff.1 hmap
  obtain ⟨rfl, rfl⟩ := Prod.mk.inj heq
  exact ⟨child, without, hchild, hbelow, rfl⟩

theorem get?_of_erase? {gone after : Value} (h : erase? root steps = some (gone, after)) :
    get? root steps = some gone := by
  induction steps generalizing root after with
  | nil => cases h
  | cons s rest ih =>
    by_cases hrest : rest = []
    · subst hrest
      rw [get?_cons, Value.child?_of_dropChild?_self h]
      rfl
    · obtain ⟨child, without, hchild, hbelow, -⟩ := erase?_cons hrest h
      rw [get?_cons, hchild, Option.bind_some, ih hbelow]

theorem erase?_eq_none (h : get? root steps = none) : erase? root steps = none := by
  rcases herase : erase? root steps with - | ⟨gone, after⟩
  · rfl
  · rw [get?_of_erase? herase] at h
    cases h

theorem exists_erase? {v : Value} (hne : steps ≠ []) (hsteps : .current ∉ steps)
    (h : get? root steps = some v) : ∃ after, erase? root steps = some (v, after) := by
  induction steps generalizing root with
  | nil => exact absurd rfl hne
  | cons s rest ih =>
    obtain ⟨hs, hbelow⟩ := Segment.current_notMem_cons.1 hsteps
    obtain ⟨child, hchild, hget⟩ := Option.bind_eq_some_iff.1 h
    by_cases hrest : rest = []
    · subst hrest
      obtain rfl := Option.some.inj hget
      exact Value.exists_dropChild? hs hchild
    · obtain ⟨without, herase⟩ := ih hrest hbelow hget
      refine ⟨root.putChild s without, ?_⟩
      rw [erase?_cons_of_ne_nil hrest, hchild, Option.bind_some, herase]
      rfl

/-! ### Putting another value -/

theorem replace_cons (h : root.child? s = some child) :
    replace root (s :: rest) new = root.putChild s (replace child rest new) := by
  simp [replace, h]

theorem get?_replace_self {v : Value} (h : get? root steps = some v) :
    get? (replace root steps new) steps = some new := by
  induction steps generalizing root with
  | nil => rfl
  | cons s rest ih =>
    rw [get?_cons, Option.bind_eq_some_iff] at h
    obtain ⟨child, hchild, hrest⟩ := h
    rw [replace_cons hchild, get?_cons]
    by_cases hs : s = .current
    · subst hs
      exact ih hrest
    · rw [Value.child?_putChild_self (Value.accepts_of_child? hs hchild)]
      exact ih hrest

theorem replace_eq_self {v : Value} (h : get? root steps = some v) :
    replace root steps v = root := by
  induction steps generalizing root with
  | nil => exact (Option.some.inj h).symm
  | cons s rest ih =>
    rw [get?_cons, Option.bind_eq_some_iff] at h
    obtain ⟨child, hchild, hrest⟩ := h
    rw [replace_cons hchild, ih hrest, Value.putChild_eq_self hchild]

/-! ### Writing -/

/-- What a write goes on with is what stands there, unless it is missing or `null`. -/
theorem container_eq_self (h : root ≠ .null) : container (some root) = root := by
  cases root <;> first | rfl | exact absurd rfl h

/-- A value with a place for a segment is what a write goes on with. -/
theorem container_of_accepts (h : root.accepts s = true) : container (some root) = root := by
  refine container_eq_self ?_
  rintro rfl
  cases h

/-- A write steps into a container with a place for the segment. -/
theorem set_cons_of_accepts (h : (container old).accepts s = true) :
    set old (s :: rest) new =
      ⟨(container old).putChild s (set ((container old).child? s) rest new).value,
        (set ((container old).child? s) rest new).answer.mapError Refusal.deeper⟩ := by
  rcases Value.accepts_iff.1 h with ⟨fields, key, hc, hkey⟩ | ⟨items, i, pos, hc, rfl, hpos⟩
  · rw [hc, Value.child?_object hkey, Value.putChild_object hkey]
    simp [set, hc, hkey]
  · rw [hc, Value.child?_array hpos, Value.putChild_array hpos]
    simp [set, hc, hpos]

/-- A write is refused where there is no place for the segment. -/
theorem set_cons_of_not_accepts (rest : List Segment) (new : Value)
    (h : (container old).accepts s = false) :
    ∃ r, set old (s :: rest) new = ⟨container old, .error r⟩ := by
  cases hc : container old with
  | object fields =>
    have hkey : s.key? = none := by simpa [hc, Value.accepts] using h
    exact ⟨.currentNotWritable, by simp [set, hc, hkey]⟩
  | array items =>
    rcases s with name | i | -
    · exact ⟨.notContainer 0 .array, by simp [set, hc]⟩
    · have hpos : position? i items.length = none := by simpa [hc, Value.accepts] using h
      exact ⟨.outOfRange i items.length, by simp [set, hc, hpos]⟩
    · exact ⟨.notContainer 0 .array, by simp [set, hc]⟩
  | _ => exact ⟨_, by rw [set, hc]⟩

/-- Where there is nothing, a write meets no refusal: it makes every object it steps into. -/
theorem answer_set_none (hsteps : .current ∉ steps) :
    (set none steps new).answer = .ok none := by
  induction steps with
  | nil => rfl
  | cons s rest ih =>
    obtain ⟨hs, hrest⟩ := Segment.current_notMem_cons.1 hsteps
    have hacc : (container none).accepts s = true := Value.accepts_empty hs
    have hchild : (container none).child? s = none := by
      cases s <;> first | rfl | exact absurd rfl hs
    rw [set_cons_of_accepts hacc, hchild, ih hrest]
    rfl

/-- **A refused write leaves the value as it was.**  Objects are made only where
there is nothing or `null`, and below the first of them nothing is refused. -/
theorem value_set_of_error {r : Refusal} (hsteps : .current ∉ steps)
    (h : (set (some root) steps new).answer = .error r) :
    (set (some root) steps new).value = root := by
  induction steps generalizing root r with
  | nil => simp [set] at h
  | cons s rest ih =>
    obtain ⟨hs, hrest⟩ := Segment.current_notMem_cons.1 hsteps
    by_cases hnull : root = .null
    · -- as if nothing stood there
      subst hnull
      have hok : (set (some .null) (s :: rest) new).answer = .ok none :=
        answer_set_none hsteps
      rw [hok] at h
      cases h
    · have hc := container_eq_self hnull
      cases hacc : (container (some root)).accepts s with
      | false =>
        obtain ⟨r', hset⟩ := set_cons_of_not_accepts rest new hacc
        rw [hset, hc]
      | true =>
        rw [set_cons_of_accepts hacc, hc] at h ⊢
        rcases hchild : root.child? s with - | child
        · -- the first object that is made: no refusal comes from below it
          rw [hchild, answer_set_none hrest] at h
          cases h
        · rw [hchild] at h
          rcases hbelow : (set (some child) rest new).answer with r' | x
          · rw [ih hrest hbelow]
            exact Value.putChild_eq_self hchild
          · rw [hbelow] at h
            cases h

/-- An accepted write is read back. -/
theorem get?_set_self {x : Option Value} (h : (set old steps new).answer = .ok x) :
    get? (set old steps new).value steps = some new := by
  induction steps generalizing old x with
  | nil => rfl
  | cons s rest ih =>
    cases hacc : (container old).accepts s with
    | false =>
      obtain ⟨r, hset⟩ := set_cons_of_not_accepts rest new hacc
      rw [hset] at h
      cases h
    | true =>
      rw [set_cons_of_accepts hacc] at h ⊢
      rw [get?_cons, Value.child?_putChild_self hacc]
      rcases hbelow : (set ((container old).child? s) rest new).answer with r | x'
      · rw [hbelow] at h
        cases h
      · exact ih hbelow

/-- A write where something is puts the new value in its place. -/
theorem set_of_get? {v : Value} (hsteps : .current ∉ steps) (h : get? root steps = some v) :
    set (some root) steps new = ⟨replace root steps new, .ok (some v)⟩ := by
  induction steps generalizing root with
  | nil =>
    obtain rfl := Option.some.inj h
    rfl
  | cons s rest ih =>
    obtain ⟨hs, hrest⟩ := Segment.current_notMem_cons.1 hsteps
    obtain ⟨child, hchild, hbelow⟩ := Option.bind_eq_some_iff.1 h
    have hacc := Value.accepts_of_child? hs hchild
    have hc := container_of_accepts hacc
    rw [set_cons_of_accepts (hc.symm ▸ hacc), hc, hchild, ih hrest hbelow, replace_cons hchild]
    rfl

/-- A write of the value that is there already changes nothing. -/
theorem set_eq_self {v : Value} (hsteps : .current ∉ steps) (h : get? root steps = some v) :
    set (some root) steps v = ⟨root, .ok (some v)⟩ := by
  rw [set_of_get? hsteps h, replace_eq_self h]

end Steps

/-- A refused write along a path leaves the value as it was. -/
theorem Path.value_set_of_error {p : Path} {root new : Value} {r : Refusal}
    (hp : .current ∉ p.steps) (h : (p.set root new).answer = .error r) :
    (p.set root new).value = root :=
  Steps.value_set_of_error hp h

end MetadataRules
