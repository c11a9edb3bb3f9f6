/-
MetadataRules/Proofs/Document/Tree.lean

Values, and the trees of files that they are written as.

On the way to a tree and back a value is taken apart and put together again, and
only numbers are looked at (`Value.ConvertsNumbers`).  So what becomes of a value
is said by what becomes of a number (`Value.mapNumbers`): YAML keeps all of them
but the negative zero (`Yaml.toValue_ofNumber`), and JSON keeps the finite ones
and has `null` for the others (`Json.toValue_ofNumber`).

The other way round a tree has to be of the kind that values are written as, with
integers where integers are meant (`Yaml.IsCanonical`).
-/
import MetadataRules.Json.Basic
import MetadataRules.Proofs.Fields
import MetadataRules.Proofs.Number.Whole
import MetadataRules.Proofs.Value.Parts
import MetadataRules.Yaml.Basic

namespace MetadataRules

namespace Fields

variable {α : Type}

theorem insert_of_notMem {fs : Fields α} {key : String} (v : α) (h : key ∉ keys fs) :
    insert fs key v = fs ++ [(key, v)] := by
  induction fs with
  | nil => rfl
  | cons e rest ih =>
    obtain ⟨k, w⟩ := e
    obtain ⟨hne, hrest⟩ : key ≠ k ∧ key ∉ keys rest := by simpa [keys] using h
    rw [insert, if_neg hne.symm, ih hrest, List.cons_append]

/-- Pairs that do not repeat a key are entries as they are. -/
theorem ofPairs_eq_self {pairs : List (String × α)} (h : (keys pairs).Nodup) :
    ofPairs pairs = pairs := by
  induction pairs using List.reverseRecOn with
  | nil => rfl
  | append_singleton pairs e ih =>
    rw [keys, List.map_append, List.nodup_append] at h
    obtain ⟨hpairs, -, hapart⟩ := h
    have hnew : e.1 ∉ keys pairs := fun hmem => hapart _ hmem _ List.mem_cons_self rfl
    rw [ofPairs_concat, ih hpairs, insert_of_notMem _ hnew]

end Fields

namespace Value

/-! ### Numbers in a value -/

mutual

/-- A value with something else in the place of each of its numbers. -/
def mapNumbers (f : Number → Value) : Value → Value
  | .number n => f n
  | .array items => .array (mapNumbersItems f items)
  | .object fields => .object (mapNumbersEntries f fields)
  | v => v

def mapNumbersItems (f : Number → Value) : List Value → List Value
  | [] => []
  | v :: rest => mapNumbers f v :: mapNumbersItems f rest

def mapNumbersEntries (f : Number → Value) : List (String × Value) → List (String × Value)
  | [] => []
  | (key, v) :: rest => (key, mapNumbers f v) :: mapNumbersEntries f rest

end

variable {f : Number → Value} {c : Value → Value} {v : Value}

theorem mapNumbers_array (f : Number → Value) (items : List Value) :
    (array items).mapNumbers f = .array (items.map (mapNumbers f)) := by
  rw [mapNumbers]
  congr 1
  induction items with
  | nil => rfl
  | cons v rest ih => rw [mapNumbersItems, ih, List.map_cons]

theorem mapNumbers_object (f : Number → Value) (fields : Fields Value) :
    (object fields).mapNumbers f = .object (fields.map fun e => (e.1, e.2.mapNumbers f)) := by
  rw [mapNumbers]
  congr 1
  induction fields with
  | nil => rfl
  | cons e rest ih => rw [mapNumbersEntries, ih, List.map_cons]

/-- A conversion that looks at numbers only: a container is converted part by part, and an
object is put together from its pairs again. -/
structure ConvertsNumbers (f : Number → Value) (c : Value → Value) : Prop where
  null : c .null = .null
  boolean : ∀ b, c (.boolean b) = .boolean b
  number : ∀ n, c (.number n) = f n
  string : ∀ s, c (.string s) = .string s
  array : ∀ items, c (.array items) = .array (items.map c)
  object : ∀ fields,
    c (.object fields) = .object (Fields.ofPairs (fields.map fun e => (e.1, c e.2)))

/-- Where no key is repeated, an object is put together as it was. -/
theorem ConvertsNumbers.eq_mapNumbers (h : ConvertsNumbers f c) (hv : v.hasUniqueKeys = true) :
    c v = v.mapNumbers f := by
  induction v with
  | null => exact h.null
  | boolean b => exact h.boolean b
  | number n => exact h.number n
  | string s => exact h.string s
  | array items ih =>
    rw [hasUniqueKeys_array_iff] at hv
    rw [h.array, mapNumbers_array, List.map_congr_left fun v hmem => ih v hmem (hv v hmem)]
  | object fields ih =>
    obtain ⟨hnodup, hvalues⟩ := hasUniqueKeys_object_iff.1 hv
    have hparts : (fields.map fun e => (e.1, c e.2)) =
        fields.map fun e => (e.1, e.2.mapNumbers f) :=
      List.map_congr_left fun e he => by rw [ih e he (hvalues e he)]
    -- the converted pairs have the keys of the object, so none of them is written over
    rw [h.object, mapNumbers_object, hparts, Fields.ofPairs_eq_self]
    rw [Fields.keys, List.map_map]
    exact hnodup

end Value

/-! ### YAML -/

namespace Yaml

theorem ofItems_eq_map (items : List Value) : ofItems items = items.map ofValue := by
  induction items with
  | nil => rfl
  | cons v rest ih => rw [ofItems, ih, List.map_cons]

theorem ofFields_eq_map (fields : Fields Value) :
    ofFields fields = fields.map fun e => (.string e.1, ofValue e.2) := by
  induction fields with
  | nil => rfl
  | cons e rest ih => rw [ofFields, ih, List.map_cons]

theorem toItems_eq_map (items : List Yaml) : toItems items = items.map toValue := by
  induction items with
  | nil => rfl
  | cons y rest ih => rw [toItems, ih, List.map_cons]

theorem toFields_eq_map (entries : List (Yaml × Yaml)) :
    toFields entries = entries.map fun e => (e.1.toValue.asText, e.2.toValue) := by
  induction entries with
  | nil => rfl
  | cons e rest ih => rw [toFields, ih, List.map_cons]

/-- A number comes back as it was, and the negative zero as the positive one. -/
theorem toValue_ofNumber (n : Number) :
    (ofNumber n).toValue = .number n.withoutNegativeZero := by
  unfold ofNumber
  split
  · rename_i i hwhole
    rw [toValue, Number.ofInt_of_wholeBelow? hwhole]
  · rename_i hnone
    rw [toValue, Number.withoutNegativeZero_eq_self (by decide) hnone]

theorem convertsNumbers :
    Value.ConvertsNumbers (fun n => .number n.withoutNegativeZero) fun v => (ofValue v).toValue where
  null := rfl
  boolean _ := rfl
  number n := toValue_ofNumber n
  string _ := rfl
  array items := by
    rw [ofValue, toValue, ofItems_eq_map, toItems_eq_map, List.map_map]
    rfl
  object fields := by
    rw [ofValue, toValue, ofFields_eq_map, toFields_eq_map, List.map_map]
    rfl

/-- A tree of the kind that values are written as: keys are strings and differ, nothing is
tagged, and a number is an integer where it is a small whole one and a float elsewhere. -/
inductive IsCanonical : Yaml → Prop
  | null : IsCanonical .null
  | boolean (b : Bool) : IsCanonical (.boolean b)
  | integer {i : Int} (h : i.natAbs < Number.integerBound) : IsCanonical (.integer i)
  | float {x : Number} (h : ¬ (x.isWhole = true ∧ x.truncate.natAbs < Number.integerBound)) :
      IsCanonical (.float x)
  | string (s : String) : IsCanonical (.string s)
  | sequence {items : List Yaml} (h : ∀ y ∈ items, IsCanonical y) : IsCanonical (.sequence items)
  | mapping {entries : List (Yaml × Yaml)} (hkeys : ∀ e ∈ entries, ∃ key, e.1 = .string key)
      (hnodup : (entries.map Prod.fst).Nodup) (h : ∀ e ∈ entries, IsCanonical e.2) :
      IsCanonical (.mapping entries)

/-- The entries of a mapping with different strings for keys. -/
theorem ofPairs_toFields {entries : List (Yaml × Yaml)}
    (hkeys : ∀ e ∈ entries, ∃ key, e.1 = .string key) (hnodup : (entries.map Prod.fst).Nodup) :
    Fields.ofPairs (toFields entries) = toFields entries := by
  refine Fields.ofPairs_eq_self ?_
  have hstrings : entries.map Prod.fst = (Fields.keys (toFields entries)).map .string := by
    rw [toFields_eq_map, Fields.keys, List.map_map, List.map_map]
    refine List.map_congr_left fun e he => ?_
    obtain ⟨key, hkey⟩ := hkeys e he
    show e.1 = .string e.1.toValue.asText
    rw [hkey]
    rfl
  rw [hstrings] at hnodup
  exact hnodup.of_map _

/-- **Such a tree is what its value is written as.** -/
theorem ofValue_toValue {y : Yaml} (h : y.IsCanonical) : ofValue y.toValue = y := by
  induction h with
  | null => rfl
  | boolean b => rfl
  | integer h =>
    rw [toValue, ofValue, ofNumber, Number.wholeBelow?_ofInt Number.integerBound_le h]
  | float h =>
    rw [toValue, ofValue, ofNumber, Number.wholeBelow?_eq_none_iff.2 h]
  | string s => rfl
  | @sequence items _ ih =>
    rw [toValue, ofValue, toItems_eq_map, ofItems_eq_map, List.map_map]
    congr 1
    exact (List.map_congr_left ih).trans (List.map_id items)
  | mapping hkeys hnodup _ ih =>
    rw [toValue, ofPairs_toFields hkeys hnodup, ofValue, toFields_eq_map, ofFields_eq_map,
      List.map_map]
    congr 1
    refine (List.map_congr_left fun e he => ?_).trans (List.map_id _)
    obtain ⟨key, hkey⟩ := hkeys e he
    show (Yaml.string e.1.toValue.asText, ofValue e.2.toValue) = (e.1, e.2)
    rw [ih e he, hkey]
    rfl

end Yaml

/-! ### JSON -/

namespace Json

theorem ofItems_eq_map (items : List Value) : ofItems items = items.map ofValue := by
  induction items with
  | nil => rfl
  | cons v rest ih => rw [ofItems, ih, List.map_cons]

theorem ofFields_eq_map (fields : Fields Value) :
    ofFields fields = fields.map fun e => (e.1, ofValue e.2) := by
  induction fields with
  | nil => rfl
  | cons e rest ih => rw [ofFields, ih, List.map_cons]

theorem toItems_eq_map (items : List Json) : toItems items = items.map toValue := by
  induction items with
  | nil => rfl
  | cons j rest ih => rw [toItems, ih, List.map_cons]

theorem toFields_eq_map (members : List (String × Json)) :
    toFields members = members.map fun e => (e.1, e.2.toValue) := by
  induction members with
  | nil => rfl
  | cons e rest ih => rw [toFields, ih, List.map_cons]

/-- The value that is left of a number: the number itself where it is finite, and `null` where
JSON has no word for it. -/
def numberLeft (n : Number) : Value :=
  if n.isFinite then .number n.withoutNegativeZero else .null

theorem toValue_ofNumber (n : Number) : (ofNumber n).toValue = numberLeft n := by
  unfold ofNumber numberLeft
  split
  · rename_i i hwhole
    have hfinite : n.isFinite = true := by
      unfold Number.wholeBelow? Number.isWhole at hwhole
      split at hwhole
      · rename_i h
        exact (Bool.and_eq_true_iff.1 (Bool.and_eq_true_iff.1 h).1).1
      · cases hwhole
    rw [toValue, Number.ofInt_of_wholeBelow? hwhole, if_pos hfinite]
  · rename_i hnone
    split
    · rw [toValue, Number.withoutNegativeZero_eq_self (by decide) hnone]
    · rfl

theorem convertsNumbers : Value.ConvertsNumbers numberLeft fun v => (ofValue v).toValue where
  null := rfl
  boolean _ := rfl
  number n := toValue_ofNumber n
  string _ := rfl
  array items := by
    rw [ofValue, toValue, ofItems_eq_map, toItems_eq_map, List.map_map]
    rfl
  object fields := by
    rw [ofValue, toValue, ofFields_eq_map, toFields_eq_map, List.map_map]
    rfl

end Json

/-! ### Back and forth -/

/-- **Values come back from the trees of both formats**, in the order of their keys.  YAML keeps
every number but the negative zero, missing and infinite numbers included; JSON has `null` for
these.  And a YAML tree of the kind that values are written as comes back from its value. -/
theorem Value.trees_inverse :
    (∀ v : Value, v.hasUniqueKeys = true →
      (Yaml.ofValue v).toValue = v.mapNumbers fun n => .number n.withoutNegativeZero) ∧
    (∀ v : Value, v.hasUniqueKeys = true →
      (Json.ofValue v).toValue =
        v.mapNumbers fun n => if n.isFinite then .number n.withoutNegativeZero else .null) ∧
    ∀ y : Yaml, y.IsCanonical → Yaml.ofValue y.toValue = y :=
  ⟨fun _ hv => Yaml.convertsNumbers.eq_mapNumbers hv,
    fun _ hv => Json.convertsNumbers.eq_mapNumbers hv, fun _ hy => Yaml.ofValue_toValue hy⟩

/-- The negative zero, a missing number and a key out of order, and a tree with a number that is
no integer. -/
theorem Value.trees_inverse_zero :
    let minusZero : Number := .ofMagnitude true 0
    let v : Value := .object [("b", .number minusZero), ("a", .array [.number .nan, .number .one])]
    let y : Yaml := .mapping [(.string "b", .integer 7), (.string "a", .float .nan)]
    (Yaml.ofValue v).toValue =
        .object [("b", .number .zero), ("a", .array [.number .nan, .number .one])] ∧
      (Json.ofValue v).toValue =
        .object [("b", .number .zero), ("a", .array [.null, .number .one])] ∧
      Yaml.ofValue y.toValue = y := by
  intro minusZero v y
  have hv : v.hasUniqueKeys = true := by decide +kernel
  have hzero : minusZero.withoutNegativeZero = .zero := by decide +kernel
  have hone : Number.one.withoutNegativeZero = .one := by decide +kernel
  have hnan : Number.nan.withoutNegativeZero = .nan := by decide +kernel
  have hfinite : minusZero.isFinite = true ∧ Number.one.isFinite = true := by decide +kernel
  have hmissing : Number.nan.isFinite = false := by decide +kernel
  have hy : y.IsCanonical := by
    refine .mapping ?_ ?_ ?_
    · simp
    · simp
    · refine List.forall_mem_cons.2 ⟨.integer (by decide), List.forall_mem_singleton.2 (.float ?_)⟩
      decide +kernel
  refine ⟨(trees_inverse.1 v hv).trans ?_, (trees_inverse.2.1 v hv).trans ?_,
    trees_inverse.2.2 y hy⟩
  · simp only [v, mapNumbers, mapNumbersEntries, mapNumbersItems, hzero, hone, hnan]
  · simp [v, mapNumbers, mapNumbersEntries, mapNumbersItems, hzero, hone, hfinite, hmissing]

end MetadataRules
