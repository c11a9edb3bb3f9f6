/-
MetadataRules/Proofs/Path/Assign.lean

Changes of one place, whatever the change.

A write and a removal do the same kind of thing: they give the place at the end
of some steps another content, a value or nothing (`Steps.assign`).  They are
possible where every step fits the container that it meets (`Steps.Fits`), and
then they are all that `set` and `erase?` do (`Steps.isOk_set_iff`,
`Steps.assign_some`, `Steps.assign_none`).

Of two changes whose steps part at a key, none disturbs the other: it fits after
the other as before (`Steps.fits_assign_iff`), it finds what it would have found
(`Steps.get?_assign`), and in either order both leave the same, up to the order
of keys (`Steps.assign_comm`).
-/
import MetadataRules.Proofs.Alike.Path
import MetadataRules.Proofs.Path.Divergence
import MetadataRules.Proofs.Value.Edits

namespace MetadataRules

namespace Fields

variable {α : Type} {fs : Fields α} {key other : String}

/-- Another content for a key: a value, or nothing. -/
def assign (fs : Fields α) (key : String) : Option α → Fields α
  | some v => insert fs key v
  | none => erase fs key

theorem get?_assign_self (h : (keys fs).Nodup) (key : String) (new : Option α) :
    get? (assign fs key new) key = new := by
  cases new with
  | none => exact get?_erase_self h key
  | some v => exact get?_insert_self fs key v

theorem get?_assign_of_ne (fs : Fields α) (hne : other ≠ key) (new : Option α) :
    get? (assign fs key new) other = get? fs other := by
  cases new with
  | none => exact get?_erase_of_ne fs hne
  | some v => exact get?_insert_of_ne fs v hne

theorem nodup_keys_assign (h : (keys fs).Nodup) (key : String) (new : Option α) :
    (keys (assign fs key new)).Nodup := by
  cases new with
  | none => exact nodup_keys_erase h key
  | some v => exact nodup_keys_insert h key v

/-- Contents that are given to two keys are found in either order. -/
theorem get?_assign_comm (h : (keys fs).Nodup) {a b : String} (hne : a ≠ b) (x y : Option α)
    (key : String) :
    get? (assign (assign fs a x) b y) key = get? (assign (assign fs b y) a x) key := by
  by_cases ha : key = a
  · subst ha
    rw [get?_assign_of_ne _ hne, get?_assign_self h,
      get?_assign_self (nodup_keys_assign h b y)]
  · rw [get?_assign_of_ne (assign fs b y) ha]
    by_cases hb : key = b
    · subst hb
      rw [get?_assign_self (nodup_keys_assign h a x), get?_assign_self h]
    · rw [get?_assign_of_ne _ hb, get?_assign_of_ne _ ha, get?_assign_of_ne _ hb]

end Fields

namespace Value

variable {root v w : Value} {s : Segment}

/-- Another content for the place of a segment: a part, or nothing. -/
def assignChild (root : Value) (s : Segment) : Option Value → Value
  | some v => root.putChild s v
  | none =>
    match root.dropChild? s with
    | some (_, rest) => rest
    | none => root

theorem assignChild_object (fields : Fields Value) (key : String) (new : Option Value) :
    (object fields).assignChild (.key key) new = .object (Fields.assign fields key new) := by
  cases new with
  | some v => rfl
  | none =>
    simp only [assignChild, dropChild?, Segment.key?_key, Option.bind_some, Fields.assign]
    cases hget : Fields.get? fields key with
    | none => exact congrArg object (Fields.erase_eq_self hget).symm
    | some old => rfl

theorem accepts_putChild (h : root.accepts s = true) : (root.putChild s v).accepts s = true := by
  rw [← sameChild_self, sameChild_putChild h, sameChild_self, h]

/-- Only the last part that is put in a place stays there. -/
theorem putChild_putChild (h : root.accepts s = true) :
    (root.putChild s v).putChild s w = root.putChild s w := by
  rcases accepts_iff.1 h with ⟨fields, key, rfl, hkey⟩ | ⟨items, i, pos, rfl, rfl, hpos⟩
  · rw [putChild_object hkey, putChild_object hkey, putChild_object hkey, Fields.insert_insert]
  · have hpos' : position? i (items.set pos v).length = some pos := by rwa [List.length_set]
    rw [putChild_array hpos, putChild_array hpos', putChild_array hpos, List.set_set]

end Value

namespace Steps

/-- Another content at the end of the steps, with objects made on the way as a write makes
them. -/
def assign (old : Option Value) : List Segment → Option Value → Option Value
  | [], new => new
  | s :: rest, new =>
    some ((container old).assignChild s (assign ((container old).child? s) rest new))

/-- Each step has a place in the container that it meets, or in one that a write makes. -/
inductive Fits : Option Value → List Segment → Prop
  | nil (old : Option Value) : Fits old []
  | cons {old : Option Value} {s : Segment} {rest : List Segment}
      (hacc : (container old).accepts s = true)
      (hrest : Fits ((container old).child? s) rest) : Fits old (s :: rest)

theorem fits_cons_iff {old : Option Value} {s : Segment} {rest : List Segment} :
    Fits old (s :: rest) ↔
      (container old).accepts s = true ∧ Fits ((container old).child? s) rest := by
  constructor
  · rintro (- | ⟨hacc, hrest⟩)
    exact ⟨hacc, hrest⟩
  · rintro ⟨hacc, hrest⟩
    exact .cons hacc hrest

variable {old new : Option Value} {root v : Value} {s : Segment}
  {p q steps rest : List Segment}

/-! ### Writes -/

/-- A write is accepted where its steps fit. -/
theorem isOk_set_iff : (set old steps v).answer.isOk = true ↔ Fits old steps := by
  induction steps generalizing old with
  | nil => exact iff_of_true rfl (.nil old)
  | cons s rest ih =>
    rw [fits_cons_iff]
    cases hacc : (container old).accepts s with
    | false =>
      obtain ⟨r, hset⟩ := set_cons_of_not_accepts rest v hacc
      rw [hset]
      exact iff_of_false Bool.false_ne_true fun h => Bool.false_ne_true h.1
    | true =>
      rw [set_cons_of_accepts hacc, isOk_mapError, ih]
      exact (and_iff_right rfl).symm

/-- A write that is accepted answers with what was there before. -/
theorem answer_set (hsteps : .current ∉ steps) (h : Fits old steps) :
    (set old steps v).answer = .ok (old.bind fun root => get? root steps) := by
  induction h with
  | nil old => cases old <;> rfl
  | @cons old s rest hacc hrest ih =>
    obtain ⟨hs, hbelow⟩ := Segment.current_notMem_cons.1 hsteps
    rw [set_cons_of_accepts hacc, ih hbelow, ← get?_container hs]
    rfl

/-- An accepted write gives its place the value that is written. -/
theorem assign_some (h : Fits old steps) :
    assign old steps (some v) = some (set old steps v).value := by
  induction h with
  | nil old => rfl
  | cons hacc hrest ih => rw [assign, ih, set_cons_of_accepts hacc, Value.assignChild]

/-! ### Removals -/

/-- A removal leaves its place empty. -/
theorem assign_none {gone after : Value} (hsteps : .current ∉ steps)
    (h : erase? root steps = some (gone, after)) :
    Fits (some root) steps ∧ assign (some root) steps none = some after := by
  induction steps generalizing root after with
  | nil => cases h
  | cons s rest ih =>
    obtain ⟨hs, hbelow⟩ := Segment.current_notMem_cons.1 hsteps
    by_cases hrest : rest = []
    · -- the last step: the part itself is dropped
      subst hrest
      have hacc := Value.accepts_of_child? hs (Value.child?_of_dropChild?_self h)
      have hc := container_of_accepts hacc
      have hdrop : root.dropChild? s = some (gone, after) := h
      refine ⟨.cons (hc.symm ▸ hacc) (.nil _), ?_⟩
      rw [assign, hc, assign, Value.assignChild, hdrop]
    · obtain ⟨child, without, hchild, herase, rfl⟩ := erase?_cons hrest h
      obtain ⟨hfits, hassign⟩ := ih hbelow herase
      have hacc := Value.accepts_of_child? hs hchild
      have hc := container_of_accepts hacc
      refine ⟨.cons (hc.symm ▸ hacc) (by rwa [hc, hchild]), ?_⟩
      rw [assign, hc, hchild, hassign, Value.assignChild]

/-! ### Two changes -/

/-- Below the first step, a change leaves something behind. -/
theorem exists_assign (hne : steps ≠ []) (old new : Option Value) :
    ∃ v, assign old steps new = some v := by
  cases steps with
  | nil => exact absurd rfl hne
  | cons s rest => exact ⟨_, rfl⟩

/-- The container that a key fits is an object. -/
theorem exists_container_of_key {a : String} (h : (container old).accepts (.key a) = true) :
    ∃ fields, container old = .object fields := by
  rcases Value.accepts_iff.1 h with ⟨fields, -, hc, -⟩ | ⟨-, i, -, -, hs, -⟩
  · exact ⟨fields, hc⟩
  · cases hs

theorem container_object (fields : Fields Value) :
    container (some (.object fields)) = .object fields := rfl

/-- What a change at a key leaves behind. -/
theorem assign_key {a : String} {fields : Fields Value} (hc : container old = .object fields) :
    assign old (.key a :: rest) new =
      some (.object (Fields.assign fields a (assign (Fields.get? fields a) rest new))) := by
  rw [assign, hc, Value.assignChild_object, Value.child?_object (Segment.key?_key a)]

/-- What a change further down leaves behind. -/
theorem assign_cons_of_ne_nil (old : Option Value) (s : Segment) (new : Option Value)
    (hne : rest ≠ []) :
    ∃ v, assign ((container old).child? s) rest new = some v ∧
      assign old (s :: rest) new = some ((container old).putChild s v) := by
  obtain ⟨v, hv⟩ := exists_assign hne ((container old).child? s) new
  exact ⟨v, hv, by rw [assign, hv, Value.assignChild]⟩

/-- A change that follows another one further down. -/
theorem assign_putChild (v : Value) (new : Option Value) (hacc : root.accepts s = true)
    (hne : rest ≠ []) :
    ∃ w, assign (some v) rest new = some w ∧
      assign (some (root.putChild s v)) (s :: rest) new = some (root.putChild s w) := by
  have hafter := container_of_accepts (Value.accepts_putChild (v := v) hacc)
  obtain ⟨w, hw, hassign⟩ := assign_cons_of_ne_nil (some (root.putChild s v)) s new hne
  rw [hafter, Value.child?_putChild_self hacc] at hw
  rw [hafter, Value.putChild_putChild hacc] at hassign
  exact ⟨w, hw, hassign⟩

/-- The steps of one change fit after another change as they fitted before. -/
theorem fits_assign_iff (new : Option Value) (h : Diverge p q) (hq : Fits old q) :
    Fits (assign old q new) p ↔ Fits old p := by
  induction h generalizing old with
  | @here a b hne p q =>
    obtain ⟨hacc, -⟩ := fits_cons_iff.1 hq
    obtain ⟨fields, hc⟩ := exists_container_of_key hacc
    have hkey := Segment.key?_key a
    rw [assign_key hc, fits_cons_iff, fits_cons_iff, container_object, hc,
      Value.child?_object hkey, Value.child?_object hkey, Fields.get?_assign_of_ne _ hne]
    rfl
  | @there s p q h ih =>
    obtain ⟨hacc, hbelow⟩ := fits_cons_iff.1 hq
    -- the container of the first step stays one, and the rest of the steps fits below it
    obtain ⟨v, hv, hassign⟩ := assign_cons_of_ne_nil old s new h.symm.ne_nil_left
    have hafter := Value.accepts_putChild (v := v) hacc
    have hfits := ih hbelow
    rw [hv] at hfits
    rw [hassign, fits_cons_iff, fits_cons_iff, container_of_accepts hafter,
      Value.child?_putChild_self hacc, hfits, hafter, hacc]

/-- What is read where one change is made is read there after another change. -/
theorem get?_assign (new : Option Value) (hp : .current ∉ p) (h : Diverge p q)
    (hq : Fits old q) :
    ((assign old q new).bind fun root => get? root p) = old.bind fun root => get? root p := by
  induction h generalizing old with
  | @here a b hne p q =>
    obtain ⟨hacc, -⟩ := fits_cons_iff.1 hq
    obtain ⟨fields, hc⟩ := exists_container_of_key hacc
    have hkey := Segment.key?_key a
    rw [assign_key hc, Option.bind_some, ← get?_container (Segment.key_ne_current a), hc,
      get?_cons, get?_cons, Value.child?_object hkey, Value.child?_object hkey,
      Fields.get?_assign_of_ne _ hne]
  | @there s p q h ih =>
    obtain ⟨hs, hrest⟩ := Segment.current_notMem_cons.1 hp
    obtain ⟨hacc, hbelow⟩ := fits_cons_iff.1 hq
    obtain ⟨v, hv, hassign⟩ := assign_cons_of_ne_nil old s new h.symm.ne_nil_left
    have hget := ih hrest hbelow
    rw [hv, Option.bind_some] at hget
    rw [hassign, Option.bind_some, ← get?_container hs, get?_cons, get?_cons,
      Value.child?_putChild_self hacc, Option.bind_some, hget]

end Steps

/-! ### Two changes in either order -/

namespace Value.Stable

variable {P : Value → Prop} {old new : Option Value} {steps : List Segment}

theorem assignChild (hP : Stable P) {root : Value} {s : Segment} (hroot : P root)
    (hnew : ∀ v ∈ new, P v) (hs : root.accepts s = true) : P (root.assignChild s new) := by
  rcases new with - | v
  · rw [Value.assignChild]
    rcases hdrop : root.dropChild? s with - | ⟨gone, rest⟩
    · exact hroot
    · exact hP.dropChild? hroot hdrop
  · exact hP.putChild hroot (hnew v rfl) hs

theorem assignObject (hP : Stable P) {fields : Fields Value} (hfields : P (.object fields))
    (hnew : ∀ v ∈ new, P v) (key : String) :
    P (.object (Fields.assign fields key new)) := by
  rcases new with - | v
  · exact hP.erase hfields
  · exact hP.insert hfields (hnew v rfl)

/-- A change of one place keeps what every edit keeps. -/
theorem assign (hP : Stable P) (hfits : Steps.Fits old steps) (hold : ∀ v ∈ old, P v)
    (hnew : ∀ v ∈ new, P v) : ∀ v ∈ Steps.assign old steps new, P v := by
  induction hfits with
  | nil => exact hnew
  | @cons old s rest hacc _ ih =>
    have hc := hP.container hold
    have hbelow := ih fun v hv => hP.child? hc hv
    intro v hv
    rw [← Option.some.inj hv]
    exact hP.assignChild hc hbelow hacc

end Value.Stable

namespace Steps

open Value (Alike Reordered stable_hasUniqueKeys)

variable {old x y : Option Value} {p q : List Segment}

/-- Contents that are given to two keys of an object, in either order. -/
theorem reordered_assign {fields : Fields Value} {a b : String} (hne : a ≠ b)
    (hfields : (Value.object fields).hasUniqueKeys = true)
    (hx : ∀ v ∈ x, v.hasUniqueKeys = true) (hy : ∀ v ∈ y, v.hasUniqueKeys = true) :
    Reordered (.object (Fields.assign (Fields.assign fields a x) b y))
      (.object (Fields.assign (Fields.assign fields b y) a x)) := by
  have hnodup := (Value.hasUniqueKeys_object_iff.1 hfields).1
  have hafter := stable_hasUniqueKeys.assignObject
    (stable_hasUniqueKeys.assignObject hfields hx a) hy b
  refine .object ?_ ?_ fun key => ?_
  · exact Fields.nodup_keys_assign (Fields.nodup_keys_assign hnodup a x) b y
  · exact Fields.nodup_keys_assign (Fields.nodup_keys_assign hnodup b y) a x
  · rw [← Fields.get?_assign_comm hnodup hne x y key]
    cases hget : Fields.get? (Fields.assign (Fields.assign fields a x) b y) key with
    | none => exact .none
    | some v =>
      have hv := stable_hasUniqueKeys.entries hafter _ (Fields.mem_of_get?_eq_some hget)
      exact .some (.refl (fun _ => rfl) hv)

/-- **Changes at diverging steps leave the same in either order**, up to the order of keys. -/
theorem assign_comm (h : Diverge p q) (hp : Fits old p) (hq : Fits old q)
    (hold : ∀ v ∈ old, v.hasUniqueKeys = true) (hx : ∀ v ∈ x, v.hasUniqueKeys = true)
    (hy : ∀ v ∈ y, v.hasUniqueKeys = true) :
    Option.Rel Reordered (assign (assign old p x) q y) (assign (assign old q y) p x) := by
  induction h generalizing old with
  | @here a b hne p q =>
    obtain ⟨hacc, hbelow⟩ := fits_cons_iff.1 hp
    obtain ⟨-, hbelow'⟩ := fits_cons_iff.1 hq
    obtain ⟨fields, hc⟩ := exists_container_of_key hacc
    have hfields := stable_hasUniqueKeys.container hold
    rw [hc] at hfields
    have hentry : ∀ key, ∀ v ∈ Fields.get? fields key, v.hasUniqueKeys = true :=
      fun key v hv => stable_hasUniqueKeys.entries hfields _ (Fields.mem_of_get?_eq_some hv)
    rw [hc, Value.child?_object (Segment.key?_key _)] at hbelow hbelow'
    -- what is put at either key is the same in both orders
    rw [assign_key hc, assign_key hc, assign_key (container_object _),
      assign_key (container_object _), Fields.get?_assign_of_ne _ hne.symm,
      Fields.get?_assign_of_ne _ hne]
    exact .some (reordered_assign hne hfields (stable_hasUniqueKeys.assign hbelow (hentry a) hx)
      (stable_hasUniqueKeys.assign hbelow' (hentry b) hy))
  | @there s p q h ih =>
    obtain ⟨hacc, hbelow⟩ := fits_cons_iff.1 hp
    obtain ⟨-, hbelow'⟩ := fits_cons_iff.1 hq
    have hc := stable_hasUniqueKeys.container hold
    have hcomm := ih hbelow hbelow' fun v hv => stable_hasUniqueKeys.child? hc hv
    -- both changes go on below the same container
    obtain ⟨v, hv, hassign⟩ := assign_cons_of_ne_nil old s x h.ne_nil_left
    obtain ⟨w, hw, hassign'⟩ := assign_cons_of_ne_nil old s y h.symm.ne_nil_left
    obtain ⟨v', hv', hassign₂⟩ := assign_putChild v y hacc h.symm.ne_nil_left
    obtain ⟨w', hw', hassign₂'⟩ := assign_putChild w x hacc h.ne_nil_left
    rw [hv, hw, hv', hw'] at hcomm
    rw [hassign, hassign', hassign₂, hassign₂']
    cases hcomm with
    | some hcomm => exact .some ((Alike.refl (fun _ => rfl) hc).putChild hcomm hacc)

end Steps

end MetadataRules
