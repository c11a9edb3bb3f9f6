/-
MetadataRules/Proofs/Value/Edits.lean

What edits of a document keep.

A property of values is `Value.Stable` when all values without parts have it,
numbers apart, an array has it when its elements do, and no edit of its entries
takes it from an object.  What a path leads to has such a property too
(`Stable.get?`), and every edit along a path keeps it (`Stable.set`,
`Stable.replace`, `Stable.erase?`).  That keys are unique is one
(`Value.stable_hasUniqueKeys`), and that all numbers pass a test is another
(`Value.stable_allNumbers`).
-/
import MetadataRules.Proofs.Fields
import MetadataRules.Proofs.Value.Parts

namespace MetadataRules

namespace Value

/-- A property that edits keep. -/
structure Stable (P : Value → Prop) : Prop where
  null : P .null
  boolean : ∀ b, P (.boolean b)
  string : ∀ s, P (.string s)
  array_iff : ∀ {items}, P (.array items) ↔ ∀ v ∈ items, P v
  entries : ∀ {fields}, P (.object fields) → ∀ e ∈ fields, P e.2
  empty : P (.object [])
  insert : ∀ {fields key v}, P (.object fields) → P v → P (.object (Fields.insert fields key v))
  erase : ∀ {fields key}, P (.object fields) → P (.object (Fields.erase fields key))
  rename : ∀ {fields old new}, Fields.get? fields new = none → P (.object fields) →
    P (.object (Fields.rename fields old new))

theorem stable_hasUniqueKeys : Stable fun v => v.hasUniqueKeys = true where
  null := rfl
  boolean _ := rfl
  string _ := rfl
  array_iff := hasUniqueKeys_array_iff
  entries h := (hasUniqueKeys_object_iff.1 h).2
  empty := rfl
  insert := by
    intro fields key v hfields hv
    rw [hasUniqueKeys_object_iff] at hfields ⊢
    refine ⟨Fields.nodup_keys_insert hfields.1 key v, fun e he => ?_⟩
    rcases Fields.mem_insert he with rfl | he
    · exact hv
    · exact hfields.2 e he
  erase := by
    intro fields key hfields
    rw [hasUniqueKeys_object_iff] at hfields ⊢
    exact ⟨Fields.nodup_keys_erase hfields.1 key, fun e he => hfields.2 e (Fields.mem_erase he)⟩
  rename := by
    intro fields old new hnew hfields
    rw [hasUniqueKeys_object_iff] at hfields ⊢
    refine ⟨Fields.nodup_keys_rename hfields.1 hnew, fun e he => ?_⟩
    obtain ⟨d, hd, heq⟩ := Fields.exists_mem_of_mem_rename he
    rw [← heq]
    exact hfields.2 d hd

/-- What every number of a value passes is kept, since edits make no numbers. -/
theorem stable_allNumbers (test : Number → Bool) : Stable fun v => v.allNumbers test = true where
  null := rfl
  boolean _ := rfl
  string _ := rfl
  array_iff := allNumbers_array_iff
  entries h := allNumbers_object_iff.1 h
  empty := rfl
  insert := by
    intro fields key v hfields hv
    rw [allNumbers_object_iff] at hfields ⊢
    intro e he
    rcases Fields.mem_insert he with rfl | he
    · exact hv
    · exact hfields e he
  erase := by
    intro fields key hfields
    rw [allNumbers_object_iff] at hfields ⊢
    exact fun e he => hfields e (Fields.mem_erase he)
  rename := by
    intro fields old new _ hfields
    rw [allNumbers_object_iff] at hfields ⊢
    intro e he
    obtain ⟨d, hd, heq⟩ := Fields.exists_mem_of_mem_rename he
    rw [← heq]
    exact hfields d hd

theorem stable_isNaNFree : Stable fun v => v.isNaNFree = true := stable_allNumbers _

theorem stable_isFinite : Stable fun v => v.isFinite = true := stable_allNumbers _

namespace Stable

variable {P Q : Value → Prop} {root child new v : Value} {s : Segment} {steps : List Segment}

/-- Two properties that edits keep are kept together. -/
theorem and (hP : Stable P) (hQ : Stable Q) : Stable fun v => P v ∧ Q v where
  null := ⟨hP.null, hQ.null⟩
  boolean b := ⟨hP.boolean b, hQ.boolean b⟩
  string s := ⟨hP.string s, hQ.string s⟩
  array_iff := by
    intro items
    rw [hP.array_iff, hQ.array_iff, ← forall₂_and]
  entries h e he := ⟨hP.entries h.1 e he, hQ.entries h.2 e he⟩
  empty := ⟨hP.empty, hQ.empty⟩
  insert h hv := ⟨hP.insert h.1 hv.1, hQ.insert h.2 hv.2⟩
  erase h := ⟨hP.erase h.1, hQ.erase h.2⟩
  rename hnew h := ⟨hP.rename hnew h.1, hQ.rename hnew h.2⟩

/-- The object of a list of pairs has what their values have. -/
theorem ofPairs (hP : Stable P) {pairs : List (String × Value)} (h : ∀ e ∈ pairs, P e.2) :
    P (.object (Fields.ofPairs pairs)) := by
  induction pairs using List.reverseRecOn with
  | nil => exact hP.empty
  | append_singleton pairs e ih =>
    obtain ⟨hpairs, he⟩ := List.forall_mem_append.1 h
    rw [Fields.ofPairs_concat]
    exact hP.insert (ih hpairs) (he e List.mem_cons_self)

theorem child? (hP : Stable P) (hroot : P root) (h : root.child? s = some child) : P child := by
  by_cases hs : s = .current
  · subst hs
    rwa [← show root = child by simpa [Value.child?] using h]
  · rcases accepts_iff.1 (accepts_of_child? hs h) with
      ⟨fields, key, rfl, hkey⟩ | ⟨items, i, pos, rfl, rfl, hpos⟩
    · rw [child?_object hkey] at h
      exact hP.entries hroot _ (Fields.mem_of_get?_eq_some h)
    · rw [child?_array hpos] at h
      exact hP.array_iff.1 hroot _ (List.mem_of_getElem? h)

theorem get? (hP : Stable P) (hroot : P root) (h : Steps.get? root steps = some v) : P v := by
  induction steps generalizing root with
  | nil => rwa [← Option.some.inj h]
  | cons s rest ih =>
    obtain ⟨child, hchild, hrest⟩ := Option.bind_eq_some_iff.1 h
    exact ih (hP.child? hroot hchild) hrest

theorem putChild (hP : Stable P) (hroot : P root) (hnew : P new) (hs : root.accepts s = true) :
    P (root.putChild s new) := by
  rcases accepts_iff.1 hs with ⟨fields, key, rfl, hkey⟩ | ⟨items, i, pos, rfl, rfl, hpos⟩
  · rw [putChild_object hkey]
    exact hP.insert hroot hnew
  · rw [putChild_array hpos]
    refine hP.array_iff.2 fun v hv => ?_
    rcases List.mem_or_eq_of_mem_set hv with hv | rfl
    · exact hP.array_iff.1 hroot v hv
    · exact hnew

/-- What a write goes on with has the property. -/
theorem container (hP : Stable P) {old : Option Value} (hold : ∀ v ∈ old, P v) :
    P (Steps.container old) := by
  rcases old with - | v
  · exact hP.empty
  · by_cases hnull : v = .null
    · subst hnull
      exact hP.empty
    · rw [Steps.container_eq_self hnull]
      exact hold v rfl

/-- A write keeps the property, whatever objects it makes and whether it is refused. -/
theorem set (hP : Stable P) {old : Option Value} (hold : ∀ v ∈ old, P v) (hnew : P new) :
    P (Steps.set old steps new).value := by
  induction steps generalizing old with
  | nil => exact hnew
  | cons s rest ih =>
    have hc := hP.container hold
    cases hacc : (Steps.container old).accepts s with
    | false =>
      obtain ⟨r, hset⟩ := Steps.set_cons_of_not_accepts rest new hacc
      rw [hset]
      exact hc
    | true =>
      rw [Steps.set_cons_of_accepts hacc]
      exact hP.putChild hc (ih fun v hv => hP.child? hc hv) hacc

theorem replace (hP : Stable P) (hroot : P root) (hnew : P new) :
    P (Steps.replace root steps new) := by
  induction steps generalizing root with
  | nil => exact hnew
  | cons s rest ih =>
    rcases hchild : root.child? s with - | child
    · rw [Steps.replace, hchild]
      exact hroot
    · rw [Steps.replace_cons hchild]
      have hbelow := ih (hP.child? hroot hchild)
      by_cases hs : s = .current
      · subst hs
        simpa [Value.putChild] using hbelow
      · exact hP.putChild hroot hbelow (accepts_of_child? hs hchild)

theorem dropChild? (hP : Stable P) (hroot : P root) {old rest : Value}
    (h : root.dropChild? s = some (old, rest)) : P rest := by
  cases root with
  | object fields =>
    simp only [Value.dropChild?, Option.bind_eq_some_iff, Option.map_eq_some_iff,
      Prod.mk.injEq] at h
    obtain ⟨key, -, v, -, -, rfl⟩ := h
    exact hP.erase hroot
  | array items =>
    cases s with
    | index i =>
      simp only [Value.dropChild?, Option.bind_eq_some_iff, Option.map_eq_some_iff,
        Prod.mk.injEq] at h
      obtain ⟨pos, -, v, -, -, rfl⟩ := h
      exact hP.array_iff.2 fun v hv => hP.array_iff.1 hroot v (List.mem_of_mem_eraseIdx hv)
    | _ => cases h
  | _ => cases h

theorem erase? (hP : Stable P) (hroot : P root) {gone after : Value}
    (h : Steps.erase? root steps = some (gone, after)) : P after := by
  induction steps generalizing root after with
  | nil => cases h
  | cons s rest ih =>
    by_cases hne : rest = []
    · subst hne
      exact hP.dropChild? hroot h
    · obtain ⟨child, without, hchild, hbelow, rfl⟩ := Steps.erase?_cons hne h
      have hwithout := ih (hP.child? hroot hchild) hbelow
      by_cases hs : s = .current
      · subst hs
        simpa [Value.putChild] using hwithout
      · exact hP.putChild hroot hwithout (accepts_of_child? hs hchild)

end Stable

end Value

/-- A write along a path keeps the property. -/
theorem Path.stable_set {P : Value → Prop} (hP : Value.Stable P) {doc new : Value} (hdoc : P doc)
    (hnew : P new) (p : Path) : P (p.set doc new).value := by
  refine hP.set (fun v hv => ?_) hnew
  rwa [← Option.some.inj hv]

end MetadataRules
