/-
MetadataRules/Proofs/Value/Parts.lean

The parts of a value.

`induction` on a value goes by `Value.rec_parts`: what holds of an array may be
shown from what holds of its elements, and what holds of an object from what
holds of the values of its entries.  `Value.all` lifts a test of single values
to a value with all its parts.  Three instances describe documents:

* `Value.hasUniqueKeys` — no object holds a key twice; the entries of an object
  are a map, so every document and every value of a rule is such a value;
* `Value.isNaNFree` — no number in it is not a number;
* `Value.isFinite` — every number in it is finite.
-/
import MetadataRules.Proofs.Path.Access

namespace MetadataRules

namespace Value

/-! ### Induction -/

/-- Induction over the parts of a value. -/
@[elab_as_elim, induction_eliminator]
theorem rec_parts {motive : Value → Prop} (null : motive .null)
    (boolean : ∀ b, motive (.boolean b)) (number : ∀ n, motive (.number n))
    (string : ∀ s, motive (.string s))
    (array : ∀ items, (∀ v ∈ items, motive v) → motive (.array items))
    (object : ∀ fields, (∀ e ∈ fields, motive e.2) → motive (.object fields))
    (v : Value) : motive v := by
  refine @Value.rec motive (fun items => ∀ v ∈ items, motive v)
    (fun fields => ∀ e ∈ fields, motive e.2) (fun e => motive e.2)
    null boolean number string array object ?_ ?_ ?_ ?_ ?_ v
  · exact fun _ h => absurd h List.not_mem_nil
  · exact fun _ _ hv hrest => List.forall_mem_cons.2 ⟨hv, hrest⟩
  · exact fun _ h => absurd h List.not_mem_nil
  · exact fun _ _ he hrest => List.forall_mem_cons.2 ⟨he, hrest⟩
  · exact fun _ _ hv => hv

/-! ### A test of every part -/

mutual

/-- A test holds of a value and of all its parts. -/
def all (test : Value → Bool) : Value → Bool
  | .array items => test (.array items) && allItems test items
  | .object fields => test (.object fields) && allEntries test fields
  | v => test v

def allItems (test : Value → Bool) : List Value → Bool
  | [] => true
  | v :: rest => all test v && allItems test rest

def allEntries (test : Value → Bool) : List (String × Value) → Bool
  | [] => true
  | (_, v) :: rest => all test v && allEntries test rest

end

variable {test : Value → Bool}

theorem allItems_iff {items : List Value} :
    allItems test items = true ↔ ∀ v ∈ items, v.all test = true := by
  induction items with
  | nil => simp [allItems]
  | cons v rest ih => simp [allItems, ih]

theorem allEntries_iff {fields : Fields Value} :
    allEntries test fields = true ↔ ∀ e ∈ fields, e.2.all test = true := by
  induction fields with
  | nil => simp [allEntries]
  | cons e rest ih =>
    rw [allEntries, Bool.and_eq_true, ih, List.forall_mem_cons]

theorem all_array_iff {items : List Value} :
    (array items).all test = true ↔
      test (.array items) = true ∧ ∀ v ∈ items, v.all test = true := by
  rw [all, Bool.and_eq_true, allItems_iff]

theorem all_object_iff {fields : Fields Value} :
    (object fields).all test = true ↔
      test (.object fields) = true ∧ ∀ e ∈ fields, e.2.all test = true := by
  rw [all, Bool.and_eq_true, allEntries_iff]

/-! ### Documents -/

/-- No object in the value holds a key twice. -/
def hasUniqueKeys (v : Value) : Bool :=
  v.all fun
    | .object fields => decide (Fields.keys fields).Nodup
    | _ => true

/-- No number in the value is not a number. -/
def isNaNFree (v : Value) : Bool :=
  v.all fun
    | .number n => !n.isNaN
    | _ => true

/-- Every number in the value passes a test. -/
def allNumbers (test : Number → Bool) (v : Value) : Bool :=
  v.all fun
    | .number n => test n
    | _ => true

/-- No number in the value is infinite or not a number. -/
def isFinite (v : Value) : Bool := v.allNumbers Number.isFinite

theorem hasUniqueKeys_object_iff {fields : Fields Value} :
    (object fields).hasUniqueKeys = true ↔
      (Fields.keys fields).Nodup ∧ ∀ e ∈ fields, e.2.hasUniqueKeys = true := by
  rw [hasUniqueKeys, all_object_iff, decide_eq_true_iff]
  rfl

theorem hasUniqueKeys_array_iff {items : List Value} :
    (array items).hasUniqueKeys = true ↔ ∀ v ∈ items, v.hasUniqueKeys = true := by
  rw [hasUniqueKeys, all_array_iff]
  exact ⟨And.right, fun h => ⟨rfl, h⟩⟩

theorem allNumbers_object_iff {test : Number → Bool} {fields : Fields Value} :
    (object fields).allNumbers test = true ↔ ∀ e ∈ fields, e.2.allNumbers test = true := by
  rw [allNumbers, all_object_iff]
  exact ⟨And.right, fun h => ⟨rfl, h⟩⟩

theorem allNumbers_array_iff {test : Number → Bool} {items : List Value} :
    (array items).allNumbers test = true ↔ ∀ v ∈ items, v.allNumbers test = true := by
  rw [allNumbers, all_array_iff]
  exact ⟨And.right, fun h => ⟨rfl, h⟩⟩

theorem isNaNFree_object_iff {fields : Fields Value} :
    (object fields).isNaNFree = true ↔ ∀ e ∈ fields, e.2.isNaNFree = true :=
  allNumbers_object_iff

theorem isNaNFree_array_iff {items : List Value} :
    (array items).isNaNFree = true ↔ ∀ v ∈ items, v.isNaNFree = true :=
  allNumbers_array_iff

theorem allNumbers_mono {test test' : Number → Bool} (h : ∀ n, test n = true → test' n = true)
    {v : Value} (hv : v.allNumbers test = true) : v.allNumbers test' = true := by
  induction v with
  | null => rfl
  | boolean b => rfl
  | number n => exact h n hv
  | string s => rfl
  | array items ih =>
    rw [allNumbers_array_iff] at hv ⊢
    exact fun v hmem => ih v hmem (hv v hmem)
  | object fields ih =>
    rw [allNumbers_object_iff] at hv ⊢
    exact fun e hmem => ih e hmem (hv e hmem)

/-! ### Height -/

mutual

/-- How many containers lie inside each other, at most. -/
def height : Value → Nat
  | .array items => heightItems items + 1
  | .object fields => heightEntries fields + 1
  | _ => 0

def heightItems : List Value → Nat
  | [] => 0
  | v :: rest => max (height v) (heightItems rest)

def heightEntries : List (String × Value) → Nat
  | [] => 0
  | (_, v) :: rest => max (height v) (heightEntries rest)

end

theorem heightItems_le_iff {items : List Value} {n : Nat} :
    heightItems items ≤ n ↔ ∀ v ∈ items, v.height ≤ n := by
  induction items with
  | nil => simp [heightItems]
  | cons v rest ih => rw [heightItems, Nat.max_le, ih, List.forall_mem_cons]

theorem heightEntries_le_iff {fields : Fields Value} {n : Nat} :
    heightEntries fields ≤ n ↔ ∀ e ∈ fields, e.2.height ≤ n := by
  induction fields with
  | nil => simp [heightEntries]
  | cons e rest ih => rw [heightEntries, Nat.max_le, ih, List.forall_mem_cons]

end Value

end MetadataRules
