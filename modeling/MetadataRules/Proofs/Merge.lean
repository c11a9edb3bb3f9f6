/-
MetadataRules/Proofs/Merge.lean

Merging the same object again.

Both merges write the entries of the source one after the other into the
target; they differ in what they write to a key, given the value that is there
(`Merge.into`).  A key of the source then has what was written for it
(`Merge.get?_into`), and a merge that would write what is there already changes
nothing (`Merge.into_eq_self`).  So a second merge of an object has no effect if
writing a second time has none, which for the deep merge is an induction over
the value that is written (`Merge.deepValue_deepValue`).
-/
import MetadataRules.Merge
import MetadataRules.Proofs.Value.Edits

namespace MetadataRules

namespace Merge

variable {combine : Option Value → Value → Value} {target source : Fields Value}

/-- Writes every entry of the source into the target; `combine` makes the new value of a key
from the one that is there and the one of the source. -/
def into (combine : Option Value → Value → Value) (target source : Fields Value) :
    Fields Value :=
  source.foldl (fun fs p => Fields.insert fs p.1 (combine (Fields.get? fs p.1) p.2)) target

theorem shallow_eq_into : shallow target source = into (fun _ v => v) target source := rfl

theorem deep_eq_into : deep target source = into deepValue target source := by
  induction source generalizing target with
  | nil => rw [deep, into, List.foldl_nil]
  | cons e rest ih =>
    obtain ⟨key, v⟩ := e
    rw [deep, ih, into, into, List.foldl_cons]

theorem into_cons (e : String × Value) :
    into combine target (e :: source) =
      into combine (Fields.insert target e.1 (combine (Fields.get? target e.1) e.2)) source :=
  rfl

/-! ### The value of a key after a merge -/

theorem get?_into_of_notMem {key : String} (h : key ∉ Fields.keys source) :
    Fields.get? (into combine target source) key = Fields.get? target key := by
  induction source generalizing target with
  | nil => rfl
  | cons e rest ih =>
    obtain ⟨hne, hrest⟩ := List.ne_and_not_mem_of_not_mem_cons h
    rw [into_cons, ih hrest, Fields.get?_insert_of_ne _ _ hne]

/-- A key of the source has what is made of its two values. -/
theorem get?_into (h : (Fields.keys source).Nodup) {key : String} {v : Value}
    (hv : (key, v) ∈ source) :
    Fields.get? (into combine target source) key =
      some (combine (Fields.get? target key) v) := by
  induction source generalizing target with
  | nil => cases hv
  | cons e rest ih =>
    obtain ⟨hkey, hrest⟩ := List.nodup_cons.1 h
    rw [into_cons]
    rcases List.mem_cons.1 hv with rfl | hv
    · rw [get?_into_of_notMem hkey, Fields.get?_insert_self]
    · have hne : key ≠ e.1 := by
        rintro rfl
        have hmem := List.mem_map_of_mem (f := Prod.fst) hv
        exact hkey hmem
      rw [ih hrest hv, Fields.get?_insert_of_ne _ _ hne]

/-- A merge that writes to each key what is there already changes nothing. -/
theorem into_eq_self (h : ∀ e ∈ source, ∃ v, Fields.get? target e.1 = some v ∧
    combine (some v) e.2 = v) : into combine target source = target := by
  induction source with
  | nil => rfl
  | cons e rest ih =>
    obtain ⟨⟨v, hget, hcombine⟩, hrest⟩ := List.forall_mem_cons.1 h
    rw [into_cons, hget, hcombine, Fields.insert_eq_self hget, ih hrest]

/-- An object that is merged twice is merged as if once, if its values are. -/
theorem into_into (hnodup : (Fields.keys source).Nodup)
    (h : ∀ e ∈ source, ∀ old, combine (some (combine old e.2)) e.2 = combine old e.2) :
    into combine (into combine target source) source = into combine target source := by
  refine into_eq_self fun e he => ⟨_, get?_into hnodup he, h e he _⟩

/-- An object merged into itself stays what it is, if its values do. -/
theorem into_self (hnodup : (Fields.keys source).Nodup)
    (h : ∀ e ∈ source, combine (some e.2) e.2 = e.2) : into combine source source = source :=
  into_eq_self fun e he => ⟨e.2, Fields.get?_of_mem hnodup he, h e he⟩

/-! ### Deep and shallow -/

theorem deepValue_object (old : Option Value) (incoming : Fields Value) :
    deepValue old (.object incoming) = match old with
      | some (.object existing) => .object (into deepValue existing incoming)
      | _ => .object incoming := by
  have heq := deepValue.eq_def old (.object incoming)
  simp only [deep_eq_into] at heq
  exact heq

theorem deepValue_self {v : Value} (h : v.hasUniqueKeys = true) : deepValue (some v) v = v := by
  induction v with
  | object fields ih =>
    obtain ⟨hnodup, hfields⟩ := Value.hasUniqueKeys_object_iff.1 h
    rw [deepValue_object]
    exact congrArg _ (into_self hnodup fun e he => ih e he (hfields e he))
  | _ => rfl

/-- A value that is written twice is written as if once. -/
theorem deepValue_deepValue {v : Value} (h : v.hasUniqueKeys = true) (old : Option Value) :
    deepValue (some (deepValue old v)) v = deepValue old v := by
  induction v generalizing old with
  | object incoming ih =>
    obtain ⟨hnodup, hincoming⟩ := Value.hasUniqueKeys_object_iff.1 h
    rw [deepValue_object old]
    split
    · rw [deepValue_object]
      exact congrArg _ (into_into hnodup fun e he => ih e he (hincoming e he))
    · exact deepValue_self h
  | _ => rfl

/-- The merge of a verb, deep or of the top level alone. -/
def ofDepth (isDeep : Bool) (target source : Fields Value) : Fields Value :=
  if isDeep then deep target source else shallow target source

theorem ofDepth_again (isDeep : Bool) (h : (Value.object source).hasUniqueKeys = true) :
    ofDepth isDeep (ofDepth isDeep target source) source = ofDepth isDeep target source := by
  obtain ⟨hnodup, hsource⟩ := Value.hasUniqueKeys_object_iff.1 h
  cases isDeep with
  | true =>
    simp only [ofDepth, if_true, deep_eq_into]
    exact into_into hnodup fun e he => deepValue_deepValue (hsource e he)
  | false =>
    simp only [ofDepth, Bool.false_eq_true, if_false, shallow_eq_into]
    exact into_into hnodup fun _ _ _ => rfl

theorem ofDepth_self (isDeep : Bool) (h : (Value.object source).hasUniqueKeys = true) :
    ofDepth isDeep source source = source := by
  obtain ⟨hnodup, hsource⟩ := Value.hasUniqueKeys_object_iff.1 h
  cases isDeep with
  | true =>
    simp only [ofDepth, if_true, deep_eq_into]
    exact into_self hnodup fun e he => deepValue_self (hsource e he)
  | false =>
    simp only [ofDepth, Bool.false_eq_true, if_false, shallow_eq_into]
    exact into_self hnodup fun _ _ => rfl

/-! ### What merges keep -/

section Stable

variable {P : Value → Prop} (hP : Value.Stable P)
include hP

theorem stable_into (hcombine : ∀ e ∈ source, ∀ old, (∀ v ∈ old, P v) → P (combine old e.2))
    (ht : P (.object target)) : P (.object (into combine target source)) := by
  induction source generalizing target with
  | nil => exact ht
  | cons e rest ih =>
    obtain ⟨he, hrest⟩ := List.forall_mem_cons.1 hcombine
    refine ih hrest (hP.insert ht (he _ fun v hv => ?_))
    exact hP.entries ht _ (Fields.mem_of_get?_eq_some hv)

theorem stable_deepValue {v : Value} (hv : P v) {old : Option Value} (hold : ∀ w ∈ old, P w) :
    P (deepValue old v) := by
  induction v generalizing old with
  | object incoming ih =>
    rw [deepValue_object]
    split
    · exact stable_into hP (fun e he old => ih e he (hP.entries hv e he)) (hold _ rfl)
    · exact hv
  | _ => exact hv

theorem stable_ofDepth (isDeep : Bool) (ht : P (.object target)) (hs : P (.object source)) :
    P (.object (ofDepth isDeep target source)) := by
  cases isDeep with
  | true =>
    simp only [ofDepth, if_true, deep_eq_into]
    exact stable_into hP (fun e he old => stable_deepValue hP (hP.entries hs e he)) ht
  | false =>
    simp only [ofDepth, Bool.false_eq_true, if_false, shallow_eq_into]
    exact stable_into hP (fun e he _ _ => hP.entries hs e he) ht

end Stable

end Merge

end MetadataRules
