/-
MetadataRules/Proofs/Merge/Laws.lean

What a merge keeps, adds and replaces.

The keys of the target stay in front and in their order, and the keys that only
the source has come behind them (`Merge.keys_into`).  Entries are told by their
keys in order and the value of each key, so this and the values say all that
there is to say about one level.  Below it, a deep merge is followed one key at a
time: a step to a key of the source leads into the merge of its two values
(`Merge.get?_cons_deep`), and a step to any other key leads where it led before.
So paths of keys lead to what the source has there, unless that is an object
(`Merge.get?_deepValue_of_leaf`), and from objects on both sides into their merge
(`Merge.get?_deepValue_of_objects`).
-/
import MetadataRules.Proofs.Merge

namespace MetadataRules

/-- Only an object has a part that a key leads to. -/
theorem Value.child?_key_eq_some {v child : Value} {key : String} :
    v.child? (.key key) = some child ↔
      ∃ fields, v = .object fields ∧ Fields.get? fields key = some child := by
  cases v with
  | object fields => simp [child?]
  | _ => simp [child?]

namespace Merge

variable {combine : Option Value → Value → Value} {target source existing incoming : Fields Value}

/-! ### Keys -/

/-- Known keys stay where they are and new ones come behind them. -/
theorem keys_into (h : (Fields.keys source).Nodup) :
    Fields.keys (into combine target source) =
      Fields.keys target ++ (Fields.keys source).filter fun key => key ∉ Fields.keys target := by
  induction source generalizing target with
  | nil => exact (List.append_nil _).symm
  | cons e rest ih =>
    obtain ⟨hkey, hrest⟩ := List.nodup_cons.1 h
    have hkeys : Fields.keys (e :: rest) = e.1 :: Fields.keys rest := rfl
    rw [into_cons, ih hrest, Fields.keys_insert, hkeys, List.filter_cons]
    split
    · rename_i hmem
      rw [if_neg (by simpa using hmem)]
    · rename_i hmem
      rw [if_pos (by simpa using hmem), List.append_assoc, List.singleton_append]
      -- the key is new to the rest of the source as well
      refine congrArg _ (congrArg _ (List.filter_congr fun key hin => ?_))
      have hne : key ≠ e.1 := fun heq => hkey (heq ▸ hin)
      simp [hne]

/-- Into nothing, entries are merged as they are. -/
theorem into_nil (h : (Fields.keys source).Nodup)
    (hcombine : ∀ e ∈ source, combine none e.2 = e.2) : into combine [] source = source := by
  -- entries are the same when their keys and the values of these are
  have hkeys : Fields.keys (into combine [] source) = Fields.keys source := by
    rw [keys_into h]
    exact List.filter_eq_self.2 fun key _ => by simp [Fields.keys]
  refine Fields.eq_of_get? (hkeys ▸ h) hkeys fun key => ?_
  rcases hget : Fields.get? source key with - | v
  · rw [get?_into_of_notMem ((Fields.get?_eq_none_iff _ _).1 hget)]
    rfl
  · have hmem := Fields.mem_of_get?_eq_some hget
    rw [get?_into h hmem]
    exact congrArg some (hcombine _ hmem)

/-- What a merge does to the keys of two objects, whatever becomes of the values of a key that
both have; and where it does nothing. -/
structure Extends (merge : Fields Value → Fields Value → Fields Value)
    (target source : Fields Value) : Prop where
  keys : Fields.keys (merge target source) =
    Fields.keys target ++ (Fields.keys source).filter fun key => key ∉ Fields.keys target
  kept : ∀ key, key ∉ Fields.keys source →
    Fields.get? (merge target source) key = Fields.get? target key
  again : merge (merge target source) source = merge target source
  self : merge source source = source
  nil_right : merge target [] = target
  nil_left : merge [] source = source

theorem extends_into (hnodup : (Fields.keys source).Nodup)
    (hagain : ∀ e ∈ source, ∀ old, combine (some (combine old e.2)) e.2 = combine old e.2)
    (hself : ∀ e ∈ source, combine (some e.2) e.2 = e.2)
    (hnone : ∀ e ∈ source, combine none e.2 = e.2) : Extends (into combine) target source where
  keys := keys_into hnodup
  kept _ := get?_into_of_notMem
  again := into_into hnodup hagain
  self := into_self hnodup hself
  nil_right := rfl
  nil_left := into_nil hnodup hnone

/-! ### Values of a deep merge -/

theorem deepValue_of_leaf {v : Value} (h : v.kind ≠ .object) (old : Option Value) :
    deepValue old v = v := by
  cases v with
  | object fields => exact absurd rfl h
  | _ => rfl

theorem deepValue_of_not_object {old : Option Value} (h : ∀ fields, old ≠ some (.object fields))
    (v : Value) : deepValue old v = v := by
  cases v with
  | object incoming =>
    rw [deepValue_object]
    split
    · exact absurd rfl (h _)
    · rfl
  | _ => rfl

theorem deepValue_objects (existing incoming : Fields Value) :
    deepValue (some (.object existing)) (.object incoming) = .object (deep existing incoming) := by
  rw [deepValue_object, deep_eq_into]

/-- Each key of the source, with the value that a deep merge makes for it. -/
theorem get?_deep (h : (Fields.keys source).Nodup) {key : String} {v : Value}
    (hv : Fields.get? source key = some v) :
    Fields.get? (deep target source) key = some (deepValue (Fields.get? target key) v) := by
  rw [deep_eq_into, get?_into h (Fields.mem_of_get?_eq_some hv)]

/-! ### Paths of keys in a deep merge -/

/-- A step to a key of the source leads into the merge of its values. -/
theorem get?_cons_deep (h : (Fields.keys source).Nodup) {key : String} {v : Value}
    (hv : Fields.get? source key = some v) (rest : List Segment) :
    Steps.get? (.object (deep target source)) (.key key :: rest) =
      Steps.get? (deepValue (Fields.get? target key) v) rest := by
  rw [Steps.get?_cons, Value.child?_object (Segment.key?_key key), get?_deep h hv, Option.bind_some]

/-- A step to a key that the source lacks leads where it led before. -/
theorem get?_cons_deep_of_notMem {key : String} (h : key ∉ Fields.keys source)
    (rest : List Segment) : Steps.get? (.object (deep target source)) (.key key :: rest) =
      Steps.get? (.object target) (.key key :: rest) := by
  rw [Steps.get?_cons, Steps.get?_cons, Value.child?_object (Segment.key?_key key),
    Value.child?_object (Segment.key?_key key), deep_eq_into, get?_into_of_notMem h]

/-- What a path of keys leads to in the source is found in the merged value too, unless it is an
object. -/
theorem get?_deepValue_of_leaf {v w : Value} (hw : w.hasUniqueKeys = true) {keys : List String}
    (h : Steps.get? w (keys.map .key) = some v) (hv : v.kind ≠ .object) (old : Option Value) :
    Steps.get? (deepValue old w) (keys.map .key) = some v := by
  induction keys generalizing old w with
  | nil =>
    obtain rfl : w = v := Option.some.inj h
    exact congrArg some (deepValue_of_leaf hv old)
  | cons key keys ih =>
    obtain ⟨child, hchild, hrest⟩ := Option.bind_eq_some_iff.1 h
    obtain ⟨fields, rfl, hget⟩ := Value.child?_key_eq_some.1 hchild
    obtain ⟨hnodup, hfields⟩ := Value.hasUniqueKeys_object_iff.1 hw
    -- the object on the path is merged if it meets one, and taken as it is otherwise
    by_cases hold : ∃ existing, old = some (.object existing)
    · obtain ⟨existing, rfl⟩ := hold
      have hmem := Fields.mem_of_get?_eq_some hget
      rw [deepValue_objects, List.map_cons, get?_cons_deep hnodup hget]
      exact ih (hfields _ hmem) hrest _
    · rw [deepValue_of_not_object fun existing heq => hold ⟨existing, heq⟩]
      exact h

/-- Where a path of keys leads to objects on both sides, it leads to their merge. -/
theorem get?_deepValue_of_objects {v w : Value} (hw : w.hasUniqueKeys = true) {keys : List String}
    (hv : Steps.get? v (keys.map .key) = some (.object existing))
    (h : Steps.get? w (keys.map .key) = some (.object incoming)) :
    Steps.get? (deepValue (some v) w) (keys.map .key) =
      some (.object (deep existing incoming)) := by
  induction keys generalizing v w with
  | nil =>
    obtain rfl := Option.some.inj hv
    obtain rfl := Option.some.inj h
    exact congrArg some (deepValue_objects existing incoming)
  | cons key keys ih =>
    -- both values on the path are objects, so the step is one into the merge of their children
    obtain ⟨child, hchild, hrest⟩ := Option.bind_eq_some_iff.1 hv
    obtain ⟨child', hchild', hrest'⟩ := Option.bind_eq_some_iff.1 h
    obtain ⟨fields, rfl, hget⟩ := Value.child?_key_eq_some.1 hchild
    obtain ⟨fields', rfl, hget'⟩ := Value.child?_key_eq_some.1 hchild'
    obtain ⟨hnodup, hfields⟩ := Value.hasUniqueKeys_object_iff.1 hw
    have hmem := Fields.mem_of_get?_eq_some hget'
    rw [deepValue_objects, List.map_cons, get?_cons_deep hnodup hget', hget]
    exact ih (hfields _ hmem) hrest hrest'

/-- Which values a deep merge gives to the keys of the source, and where paths of keys lead in
it. -/
structure MergesDeeply (target source merged : Fields Value) : Prop where
  nested : ∀ key existing incoming, Fields.get? target key = some (.object existing) →
    Fields.get? source key = some (.object incoming) →
    Fields.get? merged key = some (.object (deep existing incoming))
  replaced : ∀ key v, Fields.get? source key = some v →
    (v.kind ≠ .object ∨ ∀ existing, Fields.get? target key ≠ some (.object existing)) →
    Fields.get? merged key = some v
  reached : ∀ (keys : List String) (v : Value),
    Steps.get? (.object source) (keys.map .key) = some v → v.kind ≠ .object →
    Steps.get? (.object merged) (keys.map .key) = some v
  untouched : ∀ (keys : List String) (existing incoming : Fields Value) (key : String)
    (rest : List Segment), Steps.get? (.object target) (keys.map .key) = some (.object existing) →
    Steps.get? (.object source) (keys.map .key) = some (.object incoming) →
    key ∉ Fields.keys incoming →
    Steps.get? (.object merged) (keys.map .key ++ .key key :: rest) =
      Steps.get? (.object target) (keys.map .key ++ .key key :: rest)

theorem mergesDeeply_deep (h : (Value.object source).hasUniqueKeys = true)
    (target : Fields Value) : MergesDeeply target source (deep target source) where
  nested key existing incoming htarget hsource := by
    rw [get?_deep (Value.hasUniqueKeys_object_iff.1 h).1 hsource, htarget, deepValue_objects]
  replaced key v hsource hv := by
    rw [get?_deep (Value.hasUniqueKeys_object_iff.1 h).1 hsource]
    rcases hv with hleaf | hold
    · rw [deepValue_of_leaf hleaf]
    · rw [deepValue_of_not_object hold]
  reached keys v hsource hv := by
    rw [← deepValue_objects]
    exact get?_deepValue_of_leaf h hsource hv _
  untouched keys existing incoming key rest htarget hsource hkey := by
    rw [← deepValue_objects, Steps.get?_append, Steps.get?_append, htarget,
      get?_deepValue_of_objects h htarget hsource, Option.bind_some, Option.bind_some,
      get?_cons_deep_of_notMem hkey]

/-! ### The laws -/

/-- **The laws of both merges.**  Both keep the keys of the target in their order and add the others
of the source behind them, do nothing a second time, and change nothing where one side is empty or
both are the same.  The shallow merge gives every key of the source its value there; the deep one
merges objects that meet, so that every path of keys to something else leads to it as well, and
paths that leave the source lead where they led before. -/
theorem laws_of_hasUniqueKeys (target : Fields Value)
    (h : (Value.object source).hasUniqueKeys = true) :
    Extends deep target source ∧ MergesDeeply target source (deep target source) ∧
      Extends shallow target source ∧
      ∀ key v, Fields.get? source key = some v →
        Fields.get? (shallow target source) key = some v := by
  obtain ⟨hnodup, hsource⟩ := Value.hasUniqueKeys_object_iff.1 h
  have hdeep : deep = into deepValue := funext fun _ => funext fun _ => deep_eq_into
  have hshallow : shallow = into fun _ v => v := rfl
  refine ⟨?_, mergesDeeply_deep h target, ?_, fun key v hv => ?_⟩
  · rw [hdeep]
    exact extends_into hnodup (fun e he => deepValue_deepValue (hsource e he))
      (fun e he => deepValue_self (hsource e he))
      fun e _ => deepValue_of_not_object (fun _ => Option.some_ne_none _ ∘ Eq.symm) e.2
  · rw [hshallow]
    exact extends_into hnodup (fun _ _ _ => rfl) (fun _ _ => rfl) fun _ _ => rfl
  · rw [hshallow, get?_into hnodup (Fields.mem_of_get?_eq_some hv)]

/-- Objects that meet two levels down: one key takes a new value, one keeps its own and one is
added. -/
theorem laws_of_hasUniqueKeys_nested :
    let target : Fields Value :=
      [("a", .object [("x", .null), ("y", .boolean true)]), ("b", .null)]
    let source : Fields Value :=
      [("c", .string "new"), ("a", .object [("z", .object []), ("x", .object [])])]
    (Value.object source).hasUniqueKeys = true ∧
      Fields.keys (deep target source) = ["a", "b", "c"] ∧
      Fields.get? (deep target source) "a" =
        some (.object [("x", .object []), ("y", .boolean true), ("z", .object [])]) ∧
      Steps.get? (.object (deep target source)) [.key "a", .key "y"] = some (.boolean true) ∧
      Fields.get? (shallow target source) "a" =
        some (.object [("z", .object []), ("x", .object [])]) := by
  intro target source
  have h : (Value.object source).hasUniqueKeys = true := by decide +kernel
  obtain ⟨hdeep, hmerged, -, hshallow⟩ := laws_of_hasUniqueKeys target h
  refine ⟨h, hdeep.keys, (hmerged.nested "a" _ _ rfl rfl).trans ?_, ?_, hshallow "a" _ rfl⟩
  · rfl
  · exact hmerged.untouched ["a"] _ _ "y" [] rfl rfl (by decide)

end Merge

end MetadataRules
