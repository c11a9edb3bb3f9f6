/-
MetadataRules/Proofs/Run/KeyOrder.lean

The keys of a document keep their order.

Whatever is done below the root puts a part back under the key that it was
found under, so the keys of the root stay as they are; a write may add its own
key behind them (`Grown`).  A key is lost only where it is deleted itself, and
then the others close up.  The one edit that may add several keys is a merge
into the root, and these come in the order in which they are written
(`Run.keys_merge_root`).

So the keys after an operation are some of the keys before it, in their order,
with the new ones behind them (`Action.keys_run`).  A rename is left out: it
puts a new key in the place of an old one.
-/
import MetadataRules.Number.Fixed
import MetadataRules.Proofs.Alike.Condition
import MetadataRules.Proofs.Merge.Laws
import MetadataRules.Proofs.Path.Overlap
import MetadataRules.Proofs.Rule.Numbers
import MetadataRules.Proofs.Run.Root
import MetadataRules.Proofs.Run.Silence

namespace MetadataRules

/-- What an edit below the root makes of an object: it has the same keys, or a new one behind
them. -/
inductive Grown (fields : Fields Value) : Value → Prop
  | same {after : Fields Value} (h : Fields.keys after = Fields.keys fields) :
      Grown fields (.object after)
  | added {after : Fields Value} {key : String} (hkey : key ∉ Fields.keys fields)
      (h : Fields.keys after = Fields.keys fields ++ [key]) : Grown fields (.object after)

variable {fields : Fields Value} {doc new : Value} {steps : List Segment}

theorem Grown.refl : Grown fields (.object fields) := .same rfl

theorem grown_insert (fields : Fields Value) (key : String) (v : Value) :
    Grown fields (.object (Fields.insert fields key v)) := by
  by_cases hkey : key ∈ Fields.keys fields
  · exact .same (by rw [Fields.keys_insert, if_pos hkey])
  · exact .added hkey (by rw [Fields.keys_insert, if_neg hkey])

/-! ### Below the root -/

namespace Steps

/-- A part that is there is put back under its key. -/
theorem keys_replace (hne : steps ≠ []) (hsteps : .current ∉ steps) (new : Value) :
    ∃ after, replace (.object fields) steps new = .object after ∧
      Fields.keys after = Fields.keys fields := by
  rcases steps with - | ⟨s, rest⟩
  · exact absurd rfl hne
  · obtain ⟨hs, -⟩ := Segment.current_notMem_cons.1 hsteps
    obtain ⟨key, hkey⟩ : ∃ key, s.key? = some key := by
      cases s with
      | current => exact absurd rfl hs
      | _ => exact ⟨_, rfl⟩
    rw [replace, Value.child?_object hkey]
    rcases hget : Fields.get? fields key with - | child
    · exact ⟨fields, rfl, rfl⟩
    · have hmem : key ∈ Fields.keys fields :=
        List.mem_map_of_mem (f := Prod.fst) (Fields.mem_of_get?_eq_some hget)
      exact ⟨_, Value.putChild_object hkey, by rw [Fields.keys_insert, if_pos hmem]⟩

/-- A write below the root goes through one of its keys, refused or not. -/
theorem grown_set (hne : steps ≠ []) (new : Value) :
    Grown fields (set (some (.object fields)) steps new).value := by
  rcases steps with - | ⟨s, rest⟩
  · exact absurd rfl hne
  · simp only [set, container]
    split
    · exact grown_insert fields _ _
    · exact .refl

/-- A removal below a part of the root is one that the part is put back after. -/
theorem keys_erase?_concat {place : List Segment} {s : Segment} {gone after : Value}
    (hne : place ≠ []) (hplace : .current ∉ place)
    (h : erase? (.object fields) (place ++ [s]) = some (gone, after)) :
    ∃ after', after = .object after' ∧ Fields.keys after' = Fields.keys fields := by
  obtain ⟨parent, rest, -, -, rfl⟩ := eq_replace_of_erase? h
  exact keys_replace hne hplace rest

end Steps

theorem Grown.replace (h : Grown fields doc) (hne : steps ≠ []) (hsteps : .current ∉ steps)
    (new : Value) : Grown fields (Steps.replace doc steps new) := by
  cases h with
  | same h =>
    obtain ⟨after', heq, hkeys⟩ := Steps.keys_replace hne hsteps new
    exact heq ▸ .same (hkeys.trans h)
  | added hkey h =>
    obtain ⟨after', heq, hkeys⟩ := Steps.keys_replace hne hsteps new
    exact heq ▸ .added hkey (hkeys.trans h)

/-! ### Operations below the root -/

/-- The key of the root that a path of one step names. -/
def Path.rootKey? (p : Path) : Option String :=
  match p.steps with
  | [s] => s.key?
  | _ => none

namespace Run

variable {clock : Clock} {p target : Path}

theorem grown_set (clock : Clock) (hp : p.steps ≠ []) (l : Literal) :
    Grown fields (set clock p l (.object fields)).after := by
  simp only [set]
  split
  · exact .refl
  · split <;> exact Steps.grown_set hp _

theorem grown_step [Decimals] (verb : Keyword) (word : String) (hp : p.steps ≠ [])
    (amount : Number) :
    Grown fields (step verb word p amount (.object fields)).after := by
  simp only [step]
  split
  · exact .refl
  · split <;> exact Steps.grown_set hp _

theorem grown_merge (clock : Clock) (hne : target.steps ≠ []) (ht : .current ∉ target.steps)
    (l : Literal) (isDeep : Bool) :
    Grown fields (merge clock target l isDeep (.object fields)).after := by
  have h := merges clock target l isDeep (.object fields)
  generalize merge clock target l isDeep (.object fields) = effect at h ⊢
  cases h with
  | unchanged => exact Grown.refl.replace hne ht _
  | changed => exact Grown.refl.replace hne ht _
  | added => exact Steps.grown_set hne _
  | refused => exact Steps.grown_set hne _
  | notAnObject => exact .refl
  | valueNotAnObject => exact .refl

theorem grown_editArray (clock : Clock) (hne : target.steps ≠ []) (ht : .current ∉ target.steps)
    (filter : Option Condition) (verb : Verb) :
    Grown fields (editArray clock target filter verb (.object fields)).after := by
  have h := editsArray clock target filter verb (.object fields)
  generalize editArray clock target filter verb (.object fields) = effect at h ⊢
  cases h with
  | found => exact Grown.refl.replace hne ht _
  | made => exact (Steps.grown_set hne _).replace hne ht _
  | refused => exact Steps.grown_set hne _
  | missing => exact .refl
  | other => exact .refl

/-- Deleting a key of the root takes this key away, if it is there. -/
theorem delete_of_rootKey? {key : String} (hp : p.rootKey? = some key) :
    (delete p (.object fields)).after = .object (Fields.erase fields key) := by
  unfold Path.rootKey? at hp
  split at hp
  · rename_i s hsteps
    have herase : p.erase? (.object fields) =
        (Fields.get? fields key).map fun old => (old, .object (Fields.erase fields key)) := by
      rw [Path.erase?, hsteps]
      show s.key?.bind _ = _
      rw [hp, Option.bind_some]
    rw [delete, herase]
    rcases hget : Fields.get? fields key with - | old
    · rw [Fields.erase_eq_self hget]
      rfl
    · rfl
  · cases hp

/-- Deleting something else keeps the keys of the root. -/
theorem keys_delete (hne : p.steps ≠ []) (hp : .current ∉ p.steps) (hkey : p.rootKey? = none) :
    ∃ after, (delete p (.object fields)).after = .object after ∧
      Fields.keys after = Fields.keys fields := by
  obtain ⟨place, s, hsteps⟩ : ∃ place s, p.steps = place ++ [s] :=
    ⟨_, _, (List.dropLast_concat_getLast hne).symm⟩
  rw [hsteps, List.mem_append, not_or, List.mem_singleton] at hp
  have hplace : place ≠ [] := by
    rintro rfl
    rw [Path.rootKey?, hsteps] at hkey
    cases s with
    | current => exact hp.2 rfl
    | _ => cases hkey
  unfold delete
  split
  · rename_i old rest herase
    rw [Path.erase?, hsteps] at herase
    exact Steps.keys_erase?_concat hplace hp.1 herase
  · exact ⟨fields, rfl, rfl⟩

/-! ### Operations on the root -/

theorem get?_root (ht : target.steps = []) (doc : Value) : target.get? doc = some doc := by
  rw [Path.get?, ht]
  rfl

/-- A root that is an object has no elements to edit. -/
theorem editArray_root (clock : Clock) (ht : target.steps = []) (filter : Option Condition)
    (verb : Verb) :
    (editArray clock target filter verb (.object fields)).after = .object fields := by
  simp only [editArray, get?_root ht, Option.getD_some]
  rfl

end Run

/-- Both merges add the keys that the target lacks. -/
theorem Merge.keys_ofDepth (isDeep : Bool) {source : Fields Value}
    (h : (Fields.keys source).Nodup) : Fields.keys (ofDepth isDeep fields source) =
      Fields.keys fields ++ (Fields.keys source).filter fun key => key ∉ Fields.keys fields := by
  cases isDeep with
  | true => exact (congrArg Fields.keys deep_eq_into).trans (keys_into h)
  | false => exact (keys_into h : Fields.keys (into (fun _ v => v) fields source) = _)

/-- The keys of an object as it is written, each at its first place. -/
def Literal.keys : Literal → List String
  | .object pairs => (pairs.map Prod.fst).eraseDups
  | _ => []

theorem Literal.keys_of_resolve {l : Literal} {clock : Clock} {source : Fields Value}
    (h : l.resolve clock = .object source) : Fields.keys source = l.keys := by
  cases l with
  | object pairs =>
    obtain rfl := Value.object.inj h
    rw [Fields.keys_ofPairs, Grammar.resolvePairs_eq_map, List.map_map]
    rfl
  | _ => cases h

theorem Literal.keys_of_not_resolve {l : Literal} (clock : Clock)
    (h : ∀ source, l.resolve clock ≠ .object source) : l.keys = [] := by
  cases l with
  | object pairs => exact absurd rfl (h _)
  | _ => rfl

/-- A merge into the root adds the new keys of what is merged, in their order. -/
theorem Run.keys_merge_root (clock : Clock) (fields : Fields Value) {target : Path}
    (ht : target.steps = []) (l : Literal) (isDeep : Bool) :
    ∃ after, (merge clock target l isDeep (.object fields)).after = .object after ∧
      Fields.keys after =
        Fields.keys fields ++ l.keys.filter fun key => key ∉ Fields.keys fields := by
  cases hsource : l.resolve clock with
  | object source =>
    have hnodup : (Fields.keys source).Nodup := by
      have hunique := l.hasUniqueKeys_resolve clock
      rw [hsource] at hunique
      exact (Value.hasUniqueKeys_object_iff.1 hunique).1
    refine ⟨Merge.ofDepth isDeep fields source, ?_, ?_⟩
    · simp only [merge, hsource, get?_root ht, Option.getD_some, Path.replace, ht, Steps.replace,
        Merge.ofDepth]
      generalize (if isDeep = true then _ else _ : Fields Value) = merged
      split <;> rfl
    · rw [← Literal.keys_of_resolve hsource, Merge.keys_ofDepth isDeep hnodup]
  | _ =>
    refine ⟨fields, ?_, ?_⟩
    · simp only [merge, hsource]
      rfl
    · rw [Literal.keys_of_not_resolve clock (by simp [hsource]), List.filter_nil, List.append_nil]

/-! ### Operations -/

namespace Operation

/-- The key of the root that an operation deletes. -/
def deletedKey? : Operation → Option String
  | delete p => p.rootKey?
  | _ => none

/-- The literal that an operation merges into the root. -/
def rootLiteral? : Operation → Option Literal
  | collection target _ (.merge l _) => if target.isCurrent then some l else none
  | _ => none

/-- What becomes of the keys of an object under an operation: some of them stay, in their order,
and new ones stand behind them. -/
structure Orders (op : Operation) (old kept added : List String) : Prop where
  sublist : kept.Sublist old
  new : ∀ key ∈ added, key ∉ old
  kept_eq : kept = op.deletedKey?.elim old old.erase
  added_eq : ∀ l, op.rootLiteral? = some l → added = l.keys.filter fun key => key ∉ old
  length_le : op.rootLiteral? = none → added.length ≤ 1

variable {op : Operation} {after : Value}

theorem exists_of_rootLiteral? {target : Path} {filter : Option Condition} {verb : Verb}
    {l : Literal} (h : (collection target filter verb).rootLiteral? = some l) :
    ∃ isDeep, verb = .merge l isDeep ∧ target.steps = [] := by
  unfold rootLiteral? at h
  split at h
  · rename_i heq
    obtain ⟨rfl, rfl, rfl⟩ := Operation.collection.inj heq
    split at h
    · rename_i hcurrent
      rw [Option.some.inj h]
      exact ⟨_, rfl, List.isEmpty_iff.1 hcurrent⟩
    · cases h
  · cases h

/-- A verb on a collection that is not the root, or one that is no merge, adds at most one key. -/
theorem grown_collection (clock : Clock) {target : Path} (ht : .current ∉ target.steps)
    {filter : Option Condition} {verb : Verb}
    (h : (collection target filter verb).rootLiteral? = none) :
    Grown fields (Run.collection clock target filter verb (.object fields)).after := by
  unfold Run.collection
  split
  · exact .refl
  · by_cases hroot : target.steps = []
    · split
      · simp only [rootLiteral?, Path.isCurrent, hroot] at h
        cases h
      · rw [Run.editArray_root clock hroot]
        exact .refl
    · split
      · exact Run.grown_merge clock hroot ht _ _
      · exact Run.grown_editArray clock hroot ht _ _

/-- Below the root at most one key is added, and none is lost. -/
theorem exists_orders_of_grown (h : Grown fields after) (hkey : op.deletedKey? = none)
    (hroot : op.rootLiteral? = none) :
    ∃ after' kept added, after = .object after' ∧ Fields.keys after' = kept ++ added ∧
      op.Orders (Fields.keys fields) kept added := by
  cases h with
  | @same after h =>
    refine ⟨after, Fields.keys fields, [], rfl, by rw [h, List.append_nil], .refl _, nofun, ?_,
      ?_, fun _ => Nat.zero_le 1⟩
    · rw [hkey]
      rfl
    · rw [hroot]
      exact nofun
  | @added after key hnew h =>
    refine ⟨after, Fields.keys fields, [key], rfl, h, .refl _, ?_, ?_, ?_, fun _ => Nat.le_refl 1⟩
    · rintro key' hmem
      rwa [List.mem_singleton.1 hmem]
    · rw [hkey]
      rfl
    · rw [hroot]
      exact nofun

theorem exists_orders_delete {p : Path} (hne : p.steps ≠ []) (hp : .current ∉ p.steps) :
    ∃ after kept added, (Run.delete p (.object fields)).after = .object after ∧
      Fields.keys after = kept ++ added ∧
      (Operation.delete p).Orders (Fields.keys fields) kept added := by
  rcases hkey : p.rootKey? with - | key
  · obtain ⟨after, heq, hkeys⟩ := Run.keys_delete hne hp hkey
    exact exists_orders_of_grown (heq ▸ .same hkeys) hkey rfl
  · refine ⟨_, (Fields.keys fields).erase key, [], Run.delete_of_rootKey? hkey, ?_,
      List.erase_sublist, nofun, ?_, nofun, fun _ => Nat.zero_le 1⟩
    · rw [Fields.keys_erase, List.append_nil]
    · rw [deletedKey?, hkey]
      rfl

theorem exists_orders_collection (clock : Clock) {target : Path} (ht : .current ∉ target.steps)
    {filter : Option Condition} {verb : Verb} (hfilter : filter.isSome = verb.needsFilter) :
    ∃ after kept added,
      (Run.collection clock target filter verb (.object fields)).after = .object after ∧
      Fields.keys after = kept ++ added ∧
      (Operation.collection target filter verb).Orders (Fields.keys fields) kept added := by
  by_cases hroot : (Operation.collection target filter verb).rootLiteral? = none
  · exact exists_orders_of_grown (grown_collection clock ht hroot) rfl hroot
  · obtain ⟨l, hl⟩ := Option.ne_none_iff_exists'.1 hroot
    obtain ⟨isDeep, rfl, hsteps⟩ := exists_of_rootLiteral? hl
    obtain rfl : filter = none := Option.isNone_iff_eq_none.1 (Option.isSome_eq_false_iff.1 hfilter)
    obtain ⟨after, heq, hkeys⟩ := Run.keys_merge_root clock fields hsteps l isDeep
    refine ⟨after, _, _, heq, hkeys, .refl _, ?_, rfl, ?_, fun hnone => absurd hnone hroot⟩
    · intro key hmem
      simpa using (List.mem_filter.1 hmem).2
    · intro l' hl'
      rw [hl, Option.some.injEq] at hl'
      rw [hl']

end Operation

/-- **The keys of a document keep their order.**  After one operation other than a rename, failed
or not, the keys of the root are keys that it had, in their order, and then new ones.  None is lost
but the one that is deleted itself, and no more than one is added, except that a merge into the root
adds what is new in its literal, in the order of the literal. -/
theorem Action.keys_run [Decimals] {text : String} {op : Operation}
    (htext : Action.ofText text = .ok ⟨[op]⟩) (hop : op.fieldVerb? ≠ some .rename) (clock : Clock)
    (fields : Fields Value) :
    ∃ after kept added,
      ((⟨[op]⟩ : Action).run clock (.object fields)).newData = .object after ∧
      Fields.keys after = kept ++ added ∧ op.Orders (Fields.keys fields) kept added := by
  have hwf := (wellFormed_of_ofText htext).operations op List.mem_cons_self
  have hsteps : ∀ p ∈ op.places, .current ∉ p.steps := fun p hp => hwf.current_notMem hp
  have hne : op.isOnFields = true → ∀ p ∈ op.places, p.steps ≠ [] := by
    intro hfields p hp hnil
    have hcurrent := hwf.fields hfields p hp
    rw [Path.isCurrent, hnil] at hcurrent
    cases hcurrent
  have hrun : ((⟨[op]⟩ : Action).run clock (.object fields)).newData =
      (op.apply clock (.object fields)).after :=
    (Run.operations_singleton clock op (.object fields)).1
  rw [hrun]
  cases op with
  | set p l =>
    exact Operation.exists_orders_of_grown
      (Run.grown_set clock (hne rfl p List.mem_cons_self) l) rfl rfl
  | delete p =>
    exact Operation.exists_orders_delete (hne rfl p List.mem_cons_self)
      (hsteps p List.mem_cons_self)
  | rename source target => exact absurd rfl hop
  | increment p amount =>
    exact Operation.exists_orders_of_grown
      (Run.grown_step _ _ (hne rfl p List.mem_cons_self) _) rfl rfl
  | decrement p amount =>
    exact Operation.exists_orders_of_grown
      (Run.grown_step _ _ (hne rfl p List.mem_cons_self) _) rfl rfl
  | collection target filter verb =>
    have hfilter : filter.isSome = verb.needsFilter := by
      have hshape := shape_of_ofText htext
      cases hshape with
      | fields verb' _ hfields => cases hfields _ List.mem_cons_self
      | collection hfilter _ => exact hfilter
    exact Operation.exists_orders_collection clock (hsteps target List.mem_cons_self) hfilter

/-- A merge into the root: a key that is there keeps its place, and one that is written twice is
added once. -/
theorem Action.keys_run_merge :
    let clock : Clock := ⟨2024, 1, 1, 0, 0, 0, 0⟩
    let l : Literal := .object [("c", .now), ("a", .null), ("b", .null)]
    let op : Operation := .collection ⟨[.current]⟩ none (.merge l true)
    let fields : Fields Value := [("z", .null), ("a", .boolean true)]
    Action.ofText "FOR @ MERGE \x7bc: null, a: null, b: null, c: NOW\x7d" = .ok ⟨[op]⟩ ∧
      op.fieldVerb? ≠ some .rename ∧
      ∃ after, ((⟨[op]⟩ : Action).run clock (.object fields)).newData = .object after ∧
        Fields.keys after = ["z", "a", "c", "b"] := by
  intro clock l op fields
  have htext : Action.ofText "FOR @ MERGE \x7bc: null, a: null, b: null, c: NOW\x7d" =
      .ok ⟨[op]⟩ := by decide +kernel
  have hop : op.fieldVerb? ≠ some .rename := nofun
  obtain ⟨after, kept, added, hrun, hkeys, horders⟩ := keys_run htext hop clock fields
  refine ⟨htext, hop, after, hrun, ?_⟩
  rw [hkeys, horders.kept_eq, horders.added_eq l rfl]
  decide +kernel

end MetadataRules
