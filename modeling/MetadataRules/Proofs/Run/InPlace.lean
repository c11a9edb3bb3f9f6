/-
MetadataRules/Proofs/Run/InPlace.lean

Renaming a key inside its object.

A rename between two keys of one object does not go the way of other renames,
which write at the target and then remove at the source: the entry is called by
its new key where it stands.  The object is found through any path, which is
why the two keys are written here as `p.child old` and `p.child new`.

Where the new key is taken, the values decide.  An equal value is taken over,
and the entry of the old key is all that goes; any other value is a failure.
-/
import MetadataRules.Number.Fixed
import MetadataRules.Proofs.Alike.Operation
import MetadataRules.Proofs.Run.Rename
import MetadataRules.Proofs.Run.Silence

namespace MetadataRules

/-! ### Entries -/

namespace Fields

variable {α : Type} {before after : Fields α} {key new : String} {v : α}

theorem rename_append_cons (h : key ∉ keys before) :
    rename (before ++ (key, v) :: after) key new = before ++ (new, v) :: after := by
  induction before with
  | nil => exact if_pos rfl
  | cons e before ih =>
    obtain ⟨hne, hrest⟩ := not_or.1 (mt List.mem_cons.2 h)
    exact (if_neg (Ne.symm hne)).trans (congrArg (e :: ·) (ih hrest))

theorem erase_append_cons (h : key ∉ keys before) :
    erase (before ++ (key, v) :: after) key = before ++ after := by
  induction before with
  | nil => exact if_pos rfl
  | cons e before ih =>
    obtain ⟨hne, hrest⟩ := not_or.1 (mt List.mem_cons.2 h)
    exact (if_neg (Ne.symm hne)).trans (congrArg (e :: ·) (ih hrest))

end Fields

/-! ### Keys of one object -/

/-- Removing a key removes its entry from the object that the steps lead to. -/
theorem Steps.erase?_concat_key {root v : Value} {steps : List Segment} {key : String}
    {fields : Fields Value} (h : get? root steps = some (.object fields))
    (hv : Fields.get? fields key = some v) :
    erase? root (steps ++ [.key key]) =
      some (v, replace root steps (.object (Fields.erase fields key))) := by
  refine erase?_concat h ?_
  show (Fields.get? fields key).map _ = _
  rw [hv]
  rfl

namespace Path

variable {p : Path} {doc v : Value} {fields : Fields Value} {key old new : String}

/-- The path of a key in the object that a path names. -/
def child (p : Path) (key : String) : Path := ⟨p.segments ++ [.key key]⟩

theorem steps_child (p : Path) (key : String) : (p.child key).steps = p.steps ++ [.key key] :=
  steps_concat p (Segment.key_ne_current key)

theorem get?_child (h : p.get? doc = some (.object fields)) (key : String) :
    (p.child key).get? doc = Fields.get? fields key := by
  rw [get?, steps_child]
  exact Steps.get?_concat_key h key

theorem splitKey?_child (p : Path) (key : String) :
    (p.child key).splitKey? = some (⟨p.steps⟩, key) := by
  rw [splitKey?, steps_child, List.getLast?_concat, List.dropLast_concat]

/-- One key of an object does not lie inside another. -/
theorem not_isPrefixOf_child (hne : old ≠ new) :
    (p.child old).steps.isPrefixOf (p.child new).steps = false := by
  rw [Bool.eq_false_iff, Ne, List.isPrefixOf_iff_prefix, steps_child, steps_child]
  intro h
  have heq : p.steps ++ [Segment.key old] = p.steps ++ [Segment.key new] :=
    h.eq_of_length (by simp)
  rw [List.append_cancel_left_eq, List.cons.injEq, Segment.key.injEq] at heq
  exact hne heq.1

end Path

namespace Run

variable {source target p : Path} {doc v w : Value} {fields : Fields Value} {old new : String}

/-- Replacing at the path without its leading `@` is replacing at the path. -/
theorem replace_steps (p : Path) (doc new : Value) :
    Path.replace ⟨p.steps⟩ doc new = p.replace doc new := by
  obtain ⟨segments⟩ := p
  rcases segments with - | ⟨- | - | -, - | ⟨- | - | -, rest⟩⟩ <;> rfl

theorem renameInPlace?_child (h : p.get? doc = some (.object fields)) :
    renameInPlace? (p.child old) (p.child new) doc =
      some (p.replace doc (.object (Fields.rename fields old new))) := by
  have hparent : Path.get? ⟨p.steps⟩ doc = some (.object fields) :=
    (get?_eq_segments ⟨p.steps⟩ doc).trans h
  simp only [renameInPlace?, Path.splitKey?_child, if_true, hparent, replace_steps]

theorem without_child (h : p.get? doc = some (.object fields))
    (hv : Fields.get? fields old = some v) :
    without (p.child old) doc = p.replace doc (.object (Fields.erase fields old)) := by
  rw [without, Path.erase?, Path.steps_child, Steps.erase?_concat_key h hv]
  rfl

theorem steps_ne_of_not_isPrefixOf (h : source.steps.isPrefixOf target.steps = false) :
    source.steps ≠ target.steps := by
  intro heq
  rw [heq, Bool.eq_false_iff, Ne, List.isPrefixOf_iff_prefix] at h
  exact h (List.prefix_refl _)

theorem rename_of_free (hv : source.get? doc = some v)
    (hapart : source.steps.isPrefixOf target.steps = false) (hfree : target.get? doc = none) :
    rename source target doc = moveValue source target v doc := by
  simp only [rename, hv, if_neg (steps_ne_of_not_isPrefixOf hapart), hapart, hfree,
    Bool.false_eq_true, if_false]

theorem rename_of_taken (hv : source.get? doc = some v)
    (hapart : source.steps.isPrefixOf target.steps = false) (hw : target.get? doc = some w) :
    rename source target doc =
      if w.equal v then .changed (without source doc) s!"Renamed {source.text} → {target.text}"
      else .failed doc (.renameTargetExists source target) := by
  simp only [rename, hv, if_neg (steps_ne_of_not_isPrefixOf hapart), hapart, hw,
    Bool.false_eq_true, if_false]

section Entry

variable {before after : Fields Value} (hne : old ≠ new)
  (h : p.get? doc = some (.object (before ++ (old, v) :: after)))
  (hnodup : (Fields.keys (before ++ (old, v) :: after)).Nodup)

include hnodup in
theorem notMem_keys_before : old ∉ Fields.keys before := by
  intro hmem
  rw [Fields.keys, List.map_append, List.map_cons] at hnodup
  exact (List.nodup_append.1 hnodup).2.2 old hmem old List.mem_cons_self rfl

include hne h hnodup

/-- An entry takes a free key. -/
theorem rename_child_of_free (hnew : new ∉ Fields.keys (before ++ after)) :
    rename (p.child old) (p.child new) doc =
      .changed (p.replace doc (.object (before ++ (new, v) :: after)))
        s!"Renamed {(p.child old).text} → {(p.child new).text}" := by
  have hv : Fields.get? (before ++ (old, v) :: after) old = some v :=
    Fields.get?_of_mem hnodup (by simp)
  have hfree : (p.child new).get? doc = none := by
    rw [Path.get?_child h, Fields.get?_eq_none_iff]
    intro hmem
    simp only [Fields.keys, List.map_append, List.map_cons, List.mem_append,
      List.mem_cons] at hmem hnew
    rcases hmem with hmem | rfl | hmem
    · exact hnew (.inl hmem)
    · exact hne rfl
    · exact hnew (.inr hmem)
  rw [rename_of_free ((Path.get?_child h old).trans hv) (Path.not_isPrefixOf_child hne) hfree,
    moveValue, renameInPlace?_child h, Fields.rename_append_cons (notMem_keys_before hnodup)]

/-- An entry meets another one under its new key. -/
theorem rename_child_of_taken (hw : (new, w) ∈ before ++ after) :
    rename (p.child old) (p.child new) doc =
      if w.equal v then
        .changed (p.replace doc (.object (before ++ after)))
          s!"Renamed {(p.child old).text} → {(p.child new).text}"
      else .failed doc (.renameTargetExists (p.child old) (p.child new)) := by
  have hv : Fields.get? (before ++ (old, v) :: after) old = some v :=
    Fields.get?_of_mem hnodup (by simp)
  have htarget : (p.child new).get? doc = some w := by
    refine (Path.get?_child h new).trans (Fields.get?_of_mem hnodup ?_)
    rcases List.mem_append.1 hw with hw | hw
    · exact List.mem_append_left _ hw
    · exact List.mem_append_right _ (List.mem_cons_of_mem _ hw)
  rw [rename_of_taken ((Path.get?_child h old).trans hv) (Path.not_isPrefixOf_child hne) htarget,
    without_child h hv, Fields.erase_append_cons (notMem_keys_before hnodup)]

end Entry

end Run

/-! ### The rule -/

open Run in
/-- **A rename inside one object keeps the place of the entry.**  All keys and values around it
are as they were, in their order.

* A new key that is free becomes the key of the entry.
* A new key that has an equal value stays, and the entry of the old key is removed.
* A new key that has another value is a failure, and the document is as it was. -/
theorem Action.run_rename_child [Decimals] (clock : Clock) {p : Path} {old new : String}
    (hne : old ≠ new) {doc v : Value} (hu : doc.hasUniqueKeys = true) {before after : Fields Value}
    (h : p.get? doc = some (.object (before ++ (old, v) :: after))) :
    let source := p.child old
    let target := p.child new
    let outcome := (Action.mk [.rename source target]).run clock doc
    (new ∉ Fields.keys (before ++ after) →
      outcome.success = true ∧
      outcome.changes = [s!"Renamed {source.text} → {target.text}"] ∧
      outcome.newData = p.replace doc (.object (before ++ (new, v) :: after))) ∧
    ∀ w, (new, w) ∈ before ++ after →
      (w.equal v = true →
        outcome.success = true ∧
        outcome.changes = [s!"Renamed {source.text} → {target.text}"] ∧
        outcome.newData = p.replace doc (.object (before ++ after))) ∧
      (w.equal v = false →
        outcome.success = false ∧
        outcome.error =
          some s!"cannot rename '{source.text}' to '{target.text}': '{target.text}' already exists" ∧
        outcome.changes = [] ∧ outcome.newData = doc) := by
  intro source target outcome
  have hnodup : (Fields.keys (before ++ (old, v) :: after)).Nodup :=
    (Value.hasUniqueKeys_object_iff.1 (Value.stable_hasUniqueKeys.get? hu h)).1
  have hrun : Run.operations clock [.rename source target] doc = Run.rename source target doc :=
    operations_cons_nil clock _ doc
  refine ⟨fun hnew => ?_, fun w hw => ?_⟩
  · rw [rename_child_of_free hne h hnodup hnew] at hrun
    simp only [outcome, run, hrun]
    exact ⟨rfl, rfl, rfl⟩
  · rw [rename_child_of_taken hne h hnodup hw] at hrun
    refine ⟨fun hequal => ?_, fun hequal => ?_⟩
    · rw [if_pos hequal] at hrun
      simp only [outcome, run, hrun]
      exact ⟨rfl, rfl, rfl⟩
    · rw [if_neg (Bool.eq_false_iff.1 hequal)] at hrun
      simp only [outcome, run, hrun]
      exact ⟨rfl, rfl, rfl, rfl⟩

/-- A key of an element is renamed where it stands. -/
theorem Action.run_rename_child_element :
    let clock : Clock := ⟨2024, 1, 1, 0, 0, 0, 0⟩
    let p : Path := ⟨[.key "items", .index (-1)]⟩
    let doc : Value := .object [("items", .array [.object
      [("a", .null), ("b", .boolean true), ("c", .string "d")]])]
    let action : Action := ⟨[.rename (p.child "b") (p.child "e")]⟩
    Action.ofText "RENAME items.-1.b TO items.-1.e" = .ok action ∧
      (action.run clock doc).success = true ∧
      (action.run clock doc).changes = ["Renamed items.-1.b → items.-1.e"] ∧
      (action.run clock doc).newData = .object [("items", .array [.object
        [("a", .null), ("e", .boolean true), ("c", .string "d")]])] := by
  intro clock p doc action
  have hget : p.get? doc = some (.object ([("a", .null)] ++
      ("b", .boolean true) :: [("c", .string "d")])) := rfl
  obtain ⟨hfree, -⟩ := run_rename_child clock (by decide : "b" ≠ "e") rfl hget
  obtain ⟨hsuccess, hchanges, hdata⟩ := hfree (by decide)
  exact ⟨by decide +kernel, hsuccess, hchanges, hdata⟩

end MetadataRules
