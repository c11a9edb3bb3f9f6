/-
MetadataRules/Fields.lean

Entries of an object: pairs of a key and a value, in the order in which the
keys were first written.

A write to a known key replaces its value in place, a write to a new key adds
an entry at the end, and removing a key keeps the order of the others.  A list
built by `insert` alone never holds a key twice (`nodup_keys_insert`).
-/
namespace MetadataRules

/-- Entries in the order in which their keys were first written. -/
abbrev Fields (α : Type) := List (String × α)

namespace Fields

variable {α : Type}

/-! ### Operations -/

def keys (fs : Fields α) : List String := fs.map Prod.fst

/-- The value of a key. -/
def get? : Fields α → String → Option α
  | [], _ => none
  | (k, v) :: rest, key => if k = key then some v else get? rest key

/-- Gives a key a value: in place where the key is known, at the end otherwise. -/
def insert : Fields α → String → α → Fields α
  | [], key, new => [(key, new)]
  | (k, v) :: rest, key, new =>
    if k = key then (k, new) :: rest else (k, v) :: insert rest key new

/-- Removes the entry of a key. -/
def erase : Fields α → String → Fields α
  | [], _ => []
  | (k, v) :: rest, key => if k = key then rest else (k, v) :: erase rest key

/-- Calls the entry of one key by another, at the same place. -/
def rename : Fields α → String → String → Fields α
  | [], _, _ => []
  | (k, v) :: rest, old, new =>
    if k = old then (new, v) :: rest else (k, v) :: rename rest old new

/-- The entries of a list of pairs: a repeated key keeps its first place and
takes its last value. -/
def ofPairs (pairs : List (String × α)) : Fields α :=
  pairs.foldl (fun fs p => insert fs p.1 p.2) []

/-! ### Reading after writing -/

theorem get?_insert_self (fs : Fields α) (key : String) (v : α) :
    get? (insert fs key v) key = some v := by
  induction fs with
  | nil => simp [insert, get?]
  | cons p rest ih =>
    obtain ⟨k, w⟩ := p
    by_cases h : k = key <;> simp [insert, get?, h, ih]

theorem get?_insert_of_ne (fs : Fields α) {key other : String} (v : α) (hne : other ≠ key) :
    get? (insert fs key v) other = get? fs other := by
  induction fs with
  | nil => simp [insert, get?, Ne.symm hne]
  | cons p rest ih =>
    obtain ⟨k, w⟩ := p
    by_cases h : k = key
    · subst h
      simp [insert, get?, Ne.symm hne]
    · by_cases ho : k = other <;> simp [insert, get?, h, ho, hne, ih]

theorem get?_erase_of_ne (fs : Fields α) {key other : String} (hne : other ≠ key) :
    get? (erase fs key) other = get? fs other := by
  induction fs with
  | nil => rfl
  | cons p rest ih =>
    obtain ⟨k, w⟩ := p
    by_cases h : k = key
    · subst h
      simp [erase, get?, Ne.symm hne]
    · by_cases ho : k = other <;> simp [erase, get?, h, ho, hne, ih]

/-- A write of the value that a key has already changes nothing. -/
theorem insert_eq_self {fs : Fields α} {key : String} {v : α} (h : get? fs key = some v) :
    insert fs key v = fs := by
  induction fs with
  | nil => simp [get?] at h
  | cons p rest ih =>
    obtain ⟨k, w⟩ := p
    by_cases hk : k = key
    · simp only [get?, hk, if_true, Option.some.injEq] at h
      simp [insert, hk, h]
    · simp only [get?, hk, if_false] at h
      simp [insert, hk, ih h]

theorem get?_rename_of_ne (fs : Fields α) {old new other : String} (ho : other ≠ old)
    (hn : other ≠ new) : get? (rename fs old new) other = get? fs other := by
  induction fs with
  | nil => rfl
  | cons p rest ih =>
    obtain ⟨k, w⟩ := p
    by_cases h : k = old
    · subst h
      simp [rename, get?, Ne.symm ho, Ne.symm hn]
    · by_cases hk : k = other
      · simp [rename, get?, hk, ho]
      · simp [rename, get?, h, hk, ih]

/-- A key that was not there has the value of the entry that took its name. -/
theorem get?_rename_new {fs : Fields α} {old new : String} (h : get? fs new = none) :
    get? (rename fs old new) new = get? fs old := by
  induction fs with
  | nil => rfl
  | cons p rest ih =>
    obtain ⟨k, w⟩ := p
    by_cases hn : k = new
    · simp [get?, hn] at h
    · simp only [get?, hn, if_false] at h
      by_cases ho : k = old <;> simp [rename, get?, ho, hn, ih h]

theorem get?_eq_none_iff (fs : Fields α) (key : String) :
    get? fs key = none ↔ key ∉ keys fs := by
  induction fs with
  | nil => simp [get?, keys]
  | cons p rest ih =>
    obtain ⟨k, w⟩ := p
    by_cases h : k = key
    · simp [get?, keys, h]
    · simpa [get?, keys, h, Ne.symm h] using ih

/-- Reading a key finds one of the entries. -/
theorem mem_of_get?_eq_some {fs : Fields α} {key : String} {v : α} (h : get? fs key = some v) :
    (key, v) ∈ fs := by
  induction fs with
  | nil => simp [get?] at h
  | cons p rest ih =>
    obtain ⟨k, w⟩ := p
    by_cases hk : k = key
    · simp only [get?, hk, if_true, Option.some.injEq] at h
      simp [hk, h]
    · simp only [get?, hk, if_false] at h
      exact List.mem_cons_of_mem _ (ih h)

/-! ### Keys -/

/-- A write keeps the keys in place and adds a new one at the end. -/
theorem keys_insert (fs : Fields α) (key : String) (v : α) :
    keys (insert fs key v) = if key ∈ keys fs then keys fs else keys fs ++ [key] := by
  induction fs with
  | nil => simp [insert, keys]
  | cons p rest ih =>
    obtain ⟨k, w⟩ := p
    by_cases h : k = key
    · simp [insert, keys, h]
    · have hne : key ≠ k := Ne.symm h
      simp only [keys] at ih
      by_cases hmem : key ∈ rest.map Prod.fst <;> simp [insert, keys, h, hne, ih, hmem]

/-- A write to a known key adds no entry. -/
theorem length_insert {fs : Fields α} {key : String} {old v : α} (h : get? fs key = some old) :
    (insert fs key v).length = fs.length := by
  have hmem : key ∈ keys fs :=
    List.mem_map_of_mem (f := Prod.fst) (mem_of_get?_eq_some h)
  have hkeys : (keys (insert fs key v)).length = (keys fs).length := by
    rw [keys_insert, if_pos hmem]
  simpa [keys] using hkeys

/-- An entry after a write is the one that was written or was there before. -/
theorem mem_insert {fs : Fields α} {key : String} {v : α} {e : String × α}
    (h : e ∈ insert fs key v) : e = (key, v) ∨ e ∈ fs := by
  induction fs with
  | nil => simpa [insert] using h
  | cons p rest ih =>
    obtain ⟨k, w⟩ := p
    by_cases hk : k = key
    · simp only [insert, hk, if_true, List.mem_cons] at h
      exact h.imp_right (List.mem_cons_of_mem _)
    · simp only [insert, hk, if_false, List.mem_cons] at h
      rcases h with rfl | h
      · exact .inr List.mem_cons_self
      · exact (ih h).imp_right (List.mem_cons_of_mem _)

theorem keys_erase (fs : Fields α) (key : String) : keys (erase fs key) = (keys fs).erase key := by
  induction fs with
  | nil => rfl
  | cons p rest ih =>
    obtain ⟨k, w⟩ := p
    simp only [keys] at ih
    by_cases h : k = key <;> simp [erase, keys, h, ih]

/-- A key that no other entry has is gone once its entry is removed. -/
theorem get?_erase_self {fs : Fields α} (h : (keys fs).Nodup) (key : String) :
    get? (erase fs key) key = none := by
  rw [get?_eq_none_iff, keys_erase]
  exact h.not_mem_erase

/-- Each entry is found under its key, where no key stands twice. -/
theorem get?_of_mem {fs : Fields α} (h : (keys fs).Nodup) {key : String} {v : α}
    (hmem : (key, v) ∈ fs) : get? fs key = some v := by
  induction fs with
  | nil => simp at hmem
  | cons p rest ih =>
    obtain ⟨k, w⟩ := p
    simp only [keys, List.map_cons, List.nodup_cons] at h
    rcases List.mem_cons.1 hmem with heq | hrest
    · obtain ⟨rfl, rfl⟩ := Prod.mk.inj heq
      simp [get?]
    · have hne : k ≠ key := fun he => h.1 (he ▸ List.mem_map_of_mem (f := Prod.fst) hrest)
      simpa [get?, hne] using ih h.2 hrest

theorem nodup_keys_insert {fs : Fields α} (h : (keys fs).Nodup) (key : String) (v : α) :
    (keys (insert fs key v)).Nodup := by
  rw [keys_insert]
  split
  · exact h
  · rename_i hmem
    refine List.nodup_append.2 ⟨h, by simp, ?_⟩
    intro a ha b hb
    rw [List.mem_singleton.1 hb]
    exact fun heq => hmem (heq ▸ ha)

theorem nodup_keys_erase {fs : Fields α} (h : (keys fs).Nodup) (key : String) :
    (keys (erase fs key)).Nodup := by
  rw [keys_erase]
  exact h.erase key

end Fields

end MetadataRules
