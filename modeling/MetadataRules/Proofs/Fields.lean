/-
MetadataRules/Proofs/Fields.lean

The entries that a list of pairs stands for, and the entries that are left.

Entries are determined by their keys in order and the value of each key
(`Fields.eq_of_get?`).  So it can be said without a word about writing what
becomes of pairs that repeat a key: the key keeps its first place and takes its
last value (`Fields.Collects`), and `Fields.ofPairs` makes just that
(`Fields.collects_iff`).

What is left after a removal or a renaming was there before, and no key is
repeated that was not.
-/
import Mathlib.Data.List.Induction
import MetadataRules.Fields

namespace MetadataRules

namespace Fields

variable {α : Type} {fs gs : Fields α}

/-! ### Writing again -/

/-- Only the last value that is written for a key stays there. -/
theorem insert_insert (fs : Fields α) (key : String) (v w : α) :
    insert (insert fs key v) key w = insert fs key w := by
  induction fs with
  | nil => simp [insert]
  | cons e rest ih =>
    obtain ⟨k, x⟩ := e
    by_cases hk : k = key
    · simp [insert, hk]
    · simp [insert, hk, ih]

/-! ### Pairs -/

/-- The entries that pairs stand for: a key that is repeated has its first place and its
last value. -/
structure Collects (fields : Fields α) (pairs : List (String × α)) : Prop where
  keys : fields.keys = (pairs.map Prod.fst).eraseDups
  get? : ∀ key, fields.get? key = pairs.reverse.lookup key

/-- Entries are their keys in order, and the value of each key. -/
theorem eq_of_get? (hnodup : (keys fs).Nodup) (hkeys : keys fs = keys gs)
    (h : ∀ key, get? fs key = get? gs key) : fs = gs := by
  induction fs generalizing gs with
  | nil =>
    rw [keys, List.map_nil, eq_comm, keys, List.map_eq_nil_iff] at hkeys
    exact hkeys.symm
  | cons e fs ih =>
    obtain ⟨k, v⟩ := e
    obtain ⟨⟨k', w⟩, gs, rfl, hk', hrest⟩ := List.map_eq_cons_iff.1 hkeys.symm
    obtain rfl : k' = k := hk'
    obtain ⟨hk, hnodup⟩ := List.nodup_cons.1 hnodup
    have hv : v = w := by simpa [get?] using h k'
    rw [hv, ih hnodup hrest.symm fun key => ?_]
    have hkey := h key
    simp only [get?] at hkey
    by_cases hne : k' = key
    · -- the first key stands in neither of the rests
      subst hne
      have hgs : k' ∉ keys gs := fun hmem => hk (hrest ▸ hmem)
      rw [(get?_eq_none_iff fs k').2 hk, (get?_eq_none_iff gs k').2 hgs]
    · simpa [hne] using hkey

theorem ofPairs_concat (pairs : List (String × α)) (e : String × α) :
    ofPairs (pairs ++ [e]) = insert (ofPairs pairs) e.1 e.2 := by
  rw [ofPairs, List.foldl_append]
  rfl

theorem nodup_keys_ofPairs (pairs : List (String × α)) : (keys (ofPairs pairs)).Nodup := by
  induction pairs using List.reverseRecOn with
  | nil => exact List.nodup_nil
  | append_singleton pairs e ih =>
    rw [ofPairs_concat]
    exact nodup_keys_insert ih e.1 e.2

theorem keys_ofPairs (pairs : List (String × α)) :
    keys (ofPairs pairs) = (pairs.map Prod.fst).eraseDups := by
  induction pairs using List.reverseRecOn with
  | nil => rfl
  | append_singleton pairs e ih =>
    rw [ofPairs_concat, keys_insert, ih, List.map_append, List.eraseDups_append]
    by_cases hmem : e.1 ∈ pairs.map Prod.fst <;>
      simp [hmem, List.removeAll, List.mem_eraseDups, List.eraseDups_cons]

theorem get?_ofPairs (pairs : List (String × α)) (key : String) :
    get? (ofPairs pairs) key = pairs.reverse.lookup key := by
  induction pairs using List.reverseRecOn with
  | nil => rfl
  | append_singleton pairs e ih =>
    rw [ofPairs_concat, List.reverse_append, List.reverse_singleton, List.singleton_append,
      List.lookup_cons]
    by_cases hkey : key = e.1
    · rw [hkey, get?_insert_self, beq_self_eq_true]
    · rw [get?_insert_of_ne _ _ hkey, ih, beq_false_of_ne hkey]

/-- Every entry is one of the pairs. -/
theorem mem_ofPairs {pairs : List (String × α)} {e : String × α} (h : e ∈ ofPairs pairs) :
    e ∈ pairs := by
  induction pairs using List.reverseRecOn with
  | nil => exact h
  | append_singleton pairs d ih =>
    rw [ofPairs_concat] at h
    rcases mem_insert h with rfl | h
    · exact List.mem_append_right _ List.mem_cons_self
    · exact List.mem_append_left _ (ih h)

/-- The entries that pairs stand for are the ones that writing them one by one makes. -/
theorem collects_iff {pairs : List (String × α)} {fields : Fields α} :
    Collects fields pairs ↔ ofPairs pairs = fields := by
  constructor
  · intro h
    refine eq_of_get? (nodup_keys_ofPairs pairs) ?_ fun key => ?_
    · rw [keys_ofPairs, h.keys]
    · rw [get?_ofPairs, h.get?]
  · rintro rfl
    exact ⟨keys_ofPairs pairs, get?_ofPairs pairs⟩

/-! ### Removing and renaming -/

/-- A key that is not there is removed by doing nothing. -/
theorem erase_eq_self {key : String} (h : get? fs key = none) : erase fs key = fs := by
  induction fs with
  | nil => rfl
  | cons e rest ih =>
    obtain ⟨k, v⟩ := e
    rw [get?] at h
    split at h
    · cases h
    · rename_i hne
      rw [erase, if_neg hne, ih h]

/-- A key that is there is removed with its entry. -/
theorem length_erase_ne {key : String} {v : α} (h : get? fs key = some v) :
    (erase fs key).length ≠ fs.length := by
  have hmem : key ∈ keys fs := List.mem_map_of_mem (f := Prod.fst) (mem_of_get?_eq_some h)
  have hlength := List.length_erase_of_mem hmem
  have hpos := List.length_pos_of_mem hmem
  rw [← keys_erase] at hlength
  simp only [keys, List.length_map] at hlength hpos
  omega

/-- An entry after a removal was there before. -/
theorem mem_erase {key : String} {e : String × α} (h : e ∈ erase fs key) : e ∈ fs := by
  induction fs with
  | nil => exact h
  | cons p rest ih =>
    obtain ⟨k, v⟩ := p
    rw [erase] at h
    split at h
    · exact List.mem_cons_of_mem _ h
    · rcases List.mem_cons.1 h with rfl | h
      · exact List.mem_cons_self
      · exact List.mem_cons_of_mem _ (ih h)

/-- An entry after a renaming has the value of an entry before. -/
theorem exists_mem_of_mem_rename {old new : String} {e : String × α}
    (h : e ∈ rename fs old new) : ∃ d ∈ fs, d.2 = e.2 := by
  induction fs with
  | nil => cases h
  | cons p rest ih =>
    obtain ⟨k, v⟩ := p
    rw [rename] at h
    split at h
    · rcases List.mem_cons.1 h with rfl | h
      · exact ⟨_, List.mem_cons_self, rfl⟩
      · exact ⟨e, List.mem_cons_of_mem _ h, rfl⟩
    · rcases List.mem_cons.1 h with rfl | h
      · exact ⟨_, List.mem_cons_self, rfl⟩
      · obtain ⟨d, hd, heq⟩ := ih h
        exact ⟨d, List.mem_cons_of_mem _ hd, heq⟩

theorem mem_keys_rename {old new key : String} (h : key ∈ keys (rename fs old new)) :
    key = new ∨ key ∈ keys fs := by
  induction fs with
  | nil => exact .inr h
  | cons p rest ih =>
    obtain ⟨k, v⟩ := p
    rw [rename] at h
    split at h
    · exact (List.mem_cons.1 h).imp id (List.mem_cons_of_mem _)
    · rcases List.mem_cons.1 h with rfl | h
      · exact .inr List.mem_cons_self
      · exact (ih h).imp id (List.mem_cons_of_mem _)

/-- A key that is called by a name that no other has leaves the keys different. -/
theorem nodup_keys_rename {old new : String} (h : (keys fs).Nodup) (hnew : get? fs new = none) :
    (keys (rename fs old new)).Nodup := by
  induction fs with
  | nil => exact h
  | cons p rest ih =>
    obtain ⟨k, v⟩ := p
    obtain ⟨hk, hrest⟩ := List.nodup_cons.1 h
    obtain ⟨hnk, hnrest⟩ : new ≠ k ∧ new ∉ keys rest := by
      simpa [keys] using (get?_eq_none_iff _ _).1 hnew
    rw [rename]
    split
    · exact List.nodup_cons.2 ⟨hnrest, hrest⟩
    · refine List.nodup_cons.2 ⟨fun hmem => ?_, ih hrest ((get?_eq_none_iff _ _).2 hnrest)⟩
      exact (mem_keys_rename hmem).elim (fun heq => hnk heq.symm) hk

/-- A key that was called by another name is gone. -/
theorem get?_rename_old {old new : String} (h : (keys fs).Nodup) (hne : old ≠ new) :
    get? (rename fs old new) old = none := by
  induction fs with
  | nil => rfl
  | cons p rest ih =>
    obtain ⟨k, v⟩ := p
    obtain ⟨hk, hrest⟩ := List.nodup_cons.1 h
    rw [rename]
    split
    · rename_i heq
      subst heq
      rw [get?, if_neg hne.symm]
      exact (get?_eq_none_iff _ _).2 hk
    · rename_i hkey
      rw [get?, if_neg hkey, ih hrest]

end Fields

end MetadataRules
