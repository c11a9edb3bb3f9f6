/-
MetadataRules/Proofs/Run/Silence.lean

Runs that report no change.

A run without a line leaves a document equal to the one it was given, with one
exception (`Action.modified_imp_changes_iff`).  Operations on fields that say
nothing leave the very document, so any number of them does; and a single
operation on a collection that says nothing leaves an equal one.

The exception is a write of several fields to matching elements.  A line tells
of an element when all its fields are written, so an element is `Torn` when one
of its fields was written and a later one refused.  If nothing was reported for
the elements before it, nothing is reported at all.
-/
import MetadataRules.Number.Fixed
import MetadataRules.Proofs.Run.Operation
import MetadataRules.Proofs.Value.Equality
import MetadataRules.Run.Action

namespace MetadataRules

namespace Run

/-! ### Matching elements -/

/-- The first element that writes change is refused one of its fields after another was
written.  The elements before it do not match or are written without an effect. -/
inductive Torn (test : Value → Bool) (values : List (Path × Value)) : List Value → Prop
  | here {item : Value} (rest : List Value) (htest : test item = true)
      (hrefused : (assignAll item values).refused.isSome = true)
      (hchanged : (assignAll item values).value.equal item = false) :
      Torn test values (item :: rest)
  | there {item : Value} {rest : List Value}
      (hitem : test item = true → (assignAll item values).refused = none ∧
        (assignAll item values).value.equal item = true)
      (h : Torn test values rest) : Torn test values (item :: rest)

variable {test : Value → Bool} {values : List (Path × Value)} {items : List Value}

/-- A torn element is one that matches. -/
theorem Torn.any_eq_true (h : Torn test values items) : items.any test = true := by
  induction h with
  | here rest htest => rw [List.any_cons, htest, Bool.true_or]
  | there hitem _ ih => rw [List.any_cons, ih, Bool.or_true]

theorem equalItems_refl (h : ∀ v ∈ items, v.equal v = true) :
    Value.equalItems items items = true := by
  rw [Value.equalItems_iff, List.forall₂_same]
  exact h

/-- Writes to elements say nothing of a change exactly when they tear one. -/
theorem updateFrom_silent_iff (target : Path) (index : Nat)
    (hrefl : ∀ v ∈ items, v.equal v = true) :
    ((updateFrom target test values index items).changes = [] ∧
        Value.equalItems (updateFrom target test values index items).after items = false) ↔
      Torn test values items := by
  induction items generalizing index with
  | nil => exact iff_of_false (fun h => nomatch h.2) nofun
  | cons item rest ih =>
    obtain ⟨hitem, hrest⟩ := List.forall_mem_cons.1 hrefl
    rw [updateFrom]
    by_cases htest : test item = true
    · rw [if_pos htest]
      dsimp only
      rcases hrefused : (assignAll item values).refused with - | ⟨p, r⟩
      · -- all fields were written
        dsimp only
        cases hequal : (assignAll item values).value.equal item with
        | true =>
          simp only [if_true, List.nil_append, Value.equalItems, hequal, Bool.true_and]
          rw [ih (index + 1) hrest]
          refine ⟨.there fun _ => ⟨hrefused, hequal⟩, fun h => ?_⟩
          cases h with
          | here _ _ hsome =>
            rw [hrefused] at hsome
            cases hsome
          | there _ h => exact h
        | false =>
          refine iff_of_false (fun h => by simp at h) fun h => ?_
          cases h with
          | here _ _ hsome =>
            rw [hrefused] at hsome
            cases hsome
          | there hsame _ =>
            rw [(hsame htest).2] at hequal
            cases hequal
      · -- a write was refused, and the elements behind are left
        simp only [Effect.failed, Value.equalItems, equalItems_refl hrest, Bool.and_true,
          true_and]
        refine ⟨fun hchanged => .here rest htest (by rw [hrefused]; rfl) hchanged, fun h => ?_⟩
        cases h with
        | here _ _ _ hchanged => exact hchanged
        | there hsame _ =>
          rw [(hsame htest).1] at hrefused
          cases hrefused
    · rw [if_neg htest]
      simp only [Effect.lift, Value.equalItems, hitem, Bool.true_and]
      rw [ih (index + 1) hrest]
      refine ⟨.there fun h => absurd h htest, fun h => ?_⟩
      cases h with
      | here _ h => exact absurd h htest
      | there _ h => exact h

theorem update_silent_iff (target : Path) (hrefl : ∀ v ∈ items, v.equal v = true) :
    ((update target test values items).changes = [] ∧
        Value.equalItems (update target test values items).after items = false) ↔
      Torn test values items := by
  unfold update
  by_cases hany : items.any test = true
  · rw [if_pos hany]
    exact updateFrom_silent_iff target 0 hrefl
  · rw [if_neg hany]
    refine iff_of_false (fun h => ?_) fun h => hany h.any_eq_true
    rw [Effect.warned, equalItems_refl hrefl] at h
    cases h.2

/-! ### Operations -/

variable {clock : Clock} {doc : Value}

/-- An equal value at a path makes an equal document. -/
theorem equal_of_equalAt {p : Path} {after : Value} (hp : .current ∉ p.steps)
    (hn : doc.isNaNFree = true) (hu : doc.hasUniqueKeys = true) (h : EqualAt p doc after) :
    after.equal doc = true := by
  cases h with
  | refl => exact Value.equal_refl hn hu
  | part hold heq =>
    rw [Path.replace, Steps.equal_replace hp hn hu hold]
    exact heq

/-- Operations on fields that say nothing have done nothing. -/
theorem after_operations_of_isOnFields [Decimals] {ops : List Operation}
    (hwf : ∀ op ∈ ops, op.WellFormed) (hfields : ∀ op ∈ ops, op.isOnFields = true)
    (h : (operations clock ops doc).changes = []) : (operations clock ops doc).after = doc := by
  induction ops generalizing doc with
  | nil => rfl
  | cons op rest ih =>
    obtain ⟨hop, hrest⟩ := List.forall_mem_cons.1 hwf
    obtain ⟨hopFields, hrestFields⟩ := List.forall_mem_cons.1 hfields
    have hwhole := op.apply_whole_of_isOnFields hop hopFields clock doc
    rw [operations] at h ⊢
    dsimp only at h ⊢
    rcases hfailure : (op.apply clock doc).failure with - | failure
    · rw [hfailure] at h
      obtain ⟨hfirst, hbelow⟩ := List.append_eq_nil_iff.1 h
      -- a silent operation hands on the document that it was given
      have hafter : (op.apply clock doc).after = doc := (hwhole.of_changes hfirst).elim id id
      rw [hafter] at hbelow ⊢
      exact ih hrest hrestFields hbelow
    · exact (hwhole.of_failure (by rw [hfailure]; rfl)).1

/-- A single operation is run as it is applied. -/
theorem operations_cons_nil [Decimals] (clock : Clock) (op : Operation) (doc : Value) :
    operations clock [op] doc = op.apply clock doc := by
  simp only [operations]
  split
  · rfl
  · rename_i hnone
    simp only [Effect.unchanged, List.append_nil, ← hnone]

/-- A single verb on an array edits the elements. -/
theorem operations_collection [Decimals] (clock : Clock) {p : Path} {filter : Option Condition}
    {verb : Verb} {items : List Value} {doc : Value}
    (hfilter : (filter.isSome && !verb.takesFilter) = false)
    (hverb : ∀ l isDeep, verb ≠ .merge l isDeep) (h : p.get? doc = some (.array items)) :
    operations clock [.collection p filter verb] doc =
      (editElements clock p filter verb items).lift fun after => p.replace doc (.array after) :=
  (operations_cons_nil clock _ doc).trans (collection_of_get? hfilter hverb h)

theorem operations_singleton [Decimals] (clock : Clock) (op : Operation) (doc : Value) :
    (operations clock [op] doc).after = (op.apply clock doc).after ∧
      (operations clock [op] doc).changes = (op.apply clock doc).changes := by
  rw [operations_cons_nil]
  exact ⟨rfl, rfl⟩

/-- The elements of an array in a document equal themselves. -/
theorem equal_refl_of_get? {p : Path} (hn : doc.isNaNFree = true) (hu : doc.hasUniqueKeys = true)
    (h : p.get? doc = some (.array items)) : ∀ v ∈ items, v.equal v = true := by
  have hitemsN := Value.isNaNFree_array_iff.1 (Value.stable_isNaNFree.get? hn h)
  have hitemsU := Value.hasUniqueKeys_array_iff.1 (Value.stable_hasUniqueKeys.get? hu h)
  exact fun v hv => Value.equal_refl (hitemsN v hv) (hitemsU v hv)

/-- Writes to matching elements change a document without a line when they tear an element. -/
theorem collection_update_silent_iff {target : Path} (ht : .current ∉ target.steps)
    (filter : Option Condition) (assignments : List (Path × Literal))
    (hn : doc.isNaNFree = true) (hu : doc.hasUniqueKeys = true) :
    ((collection clock target filter (.update assignments) doc).changes = [] ∧
        (collection clock target filter (.update assignments) doc).after.equal doc = false) ↔
      ∃ c items, filter = some c ∧ target.get? doc = some (.array items) ∧
        Torn (c.holds clock) (assignments.map fun (p, l) => (p, l.resolve clock)) items := by
  constructor
  · rintro ⟨hchanges, hafter⟩
    rcases collection_update_cases clock target filter assignments doc with
      hwhole | ⟨c, items, rfl, hget, heq⟩
    · have hdoc : (collection clock target filter (.update assignments) doc).after = doc :=
        hwhole.after (P := (· = doc)) rfl (fun _ => False.elim) (fun _ => False.elim)
      rw [hdoc, Value.equal_refl hn hu] at hafter
      cases hafter
    · rw [heq] at hchanges hafter
      simp only [Effect.lift, Path.replace] at hafter
      rw [Steps.equal_replace ht hn hu hget, Value.equal] at hafter
      exact ⟨c, items, rfl, hget,
        (update_silent_iff target (equal_refl_of_get? hn hu hget)).1 ⟨hchanges, hafter⟩⟩
  · rintro ⟨c, items, rfl, hget, htorn⟩
    obtain ⟨hchanges, hafter⟩ := (update_silent_iff target (equal_refl_of_get? hn hu hget)).2 htorn
    rw [collection_update_eq clock c assignments hget]
    refine ⟨hchanges, ?_⟩
    simp only [Effect.lift, Path.replace]
    rw [Steps.equal_replace ht hn hu hget, Value.equal]
    exact hafter

end Run

/-! ### Runs -/

namespace Action

/-- An action that writes to matching elements and tears one of them, with no change
before it. -/
def Tears (clock : Clock) (action : Action) (doc : Value) : Prop :=
  ∃ target c assignments items,
    action.operations = [.collection target (some c) (.update assignments)] ∧
      target.get? doc = some (.array items) ∧
      Run.Torn (c.holds clock) (assignments.map fun (p, l) => (p, l.resolve clock)) items

variable {text : String} {action : Action} {doc : Value}

/-- A run of one operation on a collection is silent about a change exactly when it tears
an element. -/
theorem silent_iff_of_collection {target : Path} {filter : Option Condition} {verb : Verb}
    (hops : action.operations = [.collection target filter verb])
    (ht : .current ∉ target.steps) (clock : Clock) (hn : doc.isNaNFree = true)
    (hu : doc.hasUniqueKeys = true) :
    ((Run.collection clock target filter verb doc).changes = [] ∧
        (Run.collection clock target filter verb doc).after.equal doc = false) ↔
      action.Tears clock doc := by
  cases hverb : verb.isUpdate with
  | false =>
    refine iff_of_false (fun ⟨hchanges, hafter⟩ => ?_) fun h => ?_
    · have hequal : (Run.collection clock target filter verb doc).after.equal doc = true := by
        rcases (Run.collection_whole clock ht filter hverb doc).of_changes hchanges with
          hdoc | hat
        · rw [hdoc, Value.equal_refl hn hu]
        · exact Run.equal_of_equalAt ht hn hu hat
      rw [hequal] at hafter
      cases hafter
    · obtain ⟨target', c, assignments, items, hops', -⟩ := h
      have heq := hops.symm.trans hops'
      simp only [List.cons.injEq, Operation.collection.injEq, and_true] at heq
      obtain ⟨-, -, rfl⟩ := heq
      cases hverb
  | true =>
    cases verb with
    | update assignments =>
      rw [Run.collection_update_silent_iff ht filter assignments hn hu]
      constructor
      · rintro ⟨c, items, rfl, hget, htorn⟩
        exact ⟨target, c, assignments, items, hops, hget, htorn⟩
      · rintro ⟨target', c, assignments', items, hops', hget, htorn⟩
        have heq := hops.symm.trans hops'
        simp only [List.cons.injEq, Operation.collection.injEq, Verb.update.injEq,
          and_true] at heq
        obtain ⟨rfl, rfl, rfl⟩ := heq
        exact ⟨c, items, rfl, hget, htorn⟩
    | _ => cases hverb

/-- **A run that modifies a document reports a change, unless it tears an element.** -/
theorem modified_imp_changes_iff [Decimals] (htext : Action.ofText text = .ok action)
    (clock : Clock) (hn : doc.isNaNFree = true) (hu : doc.hasUniqueKeys = true) :
    ((action.run clock doc).modified = true → (action.run clock doc).changes ≠ []) ↔
      ¬ action.Tears clock doc := by
  have hwf := Action.wellFormed_of_ofText htext
  have hsilent : ((Run.operations clock action.operations doc).changes = [] ∧
      (Run.operations clock action.operations doc).after.equal doc = false) ↔
        action.Tears clock doc := by
    rcases hwf.verbs with hfields | ⟨target, filter, verb, hops⟩
    · refine iff_of_false (fun ⟨hchanges, hafter⟩ => ?_) fun h => ?_
      · rw [Run.after_operations_of_isOnFields hwf.operations hfields hchanges,
          Value.equal_refl hn hu] at hafter
        cases hafter
      · obtain ⟨target, c, assignments, items, hops, -⟩ := h
        have hfield := hfields _ (hops ▸ List.mem_cons_self)
        cases hfield
    · have hop := hwf.operations _ (hops ▸ List.mem_cons_self)
      have ht : .current ∉ target.steps := hop.current_notMem List.mem_cons_self
      obtain ⟨hafter, hchanges⟩ :=
        Run.operations_singleton clock (.collection target filter verb) doc
      rw [hops, hafter, hchanges]
      exact silent_iff_of_collection hops ht clock hn hu
  rw [← hsilent, not_and]
  show (!(Run.operations clock action.operations doc).after.equal doc) = true → _ ↔ _
  rw [Bool.not_eq_true']
  exact ⟨fun h hchanges hafter => h hafter hchanges, fun h hafter hchanges => h hchanges hafter⟩

/-- A write to a field is reported. -/
theorem modified_imp_changes_run :
    let clock : Clock := ⟨2024, 1, 1, 0, 0, 0, 0⟩
    let a : Path := ⟨[.key "a"]⟩
    let action : Action := ⟨[.set a (.boolean false)]⟩
    let doc : Value := .object [("a", .boolean true)]
    (action.run clock doc).modified = true → (action.run clock doc).changes ≠ [] := by
  intro clock a action doc
  have htext : Action.ofText "SET a false" = .ok action := by decide +kernel
  refine (modified_imp_changes_iff htext clock rfl rfl).2 ?_
  rintro ⟨target, c, assignments, items, hops, -⟩
  cases hops

/-- The first field is written and the second one refused, below a value that the first
write has put there: the element is changed and no line tells of it. -/
theorem modified_without_changes :
    let clock : Clock := ⟨2024, 1, 1, 0, 0, 0, 0⟩
    let a : Path := ⟨[.key "a"]⟩
    let action : Action := ⟨[.collection ⟨[.key "items"]⟩
      (some (.compare a .equal (.boolean true)))
      (.update [(a, .boolean false), (⟨[.key "a", .key "b"]⟩, .boolean true)])]⟩
    let doc : Value := .object [("items", .array [.object [("a", .boolean true)]])]
    Action.ofText "FOR items WHERE a = true SET a false, a.b true" = .ok action ∧
      (action.run clock doc).modified = true ∧ (action.run clock doc).changes = [] := by
  intro clock a action doc
  refine ⟨?_, rfl, rfl⟩
  decide +kernel

end Action

end MetadataRules
