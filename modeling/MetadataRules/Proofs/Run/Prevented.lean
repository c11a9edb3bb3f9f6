/-
MetadataRules/Proofs/Run/Prevented.lean

Failures that no rule text brings about.

Some checks are made twice, once when a rule is read and once when it runs: that
a verb has the filter that it needs and no other, and that no path writes to
`@`.  Two more failures guard against the program itself: an array that is gone
as soon as it was made, and a merge among the verbs on elements.  A run of rule
text ends in none of them (`Action.shape_and_failures_of_ofText`), because of
the shape that reading gives to an action and because an accepted write is read
back.

There is one lemma for each function that can fail, which says that its effect
is `Effect.Open`: if it failed, then for a reason that is left to the run.
-/
import MetadataRules.Number.Fixed
import MetadataRules.Proofs.Run.Operation
import MetadataRules.Run.Action

namespace MetadataRules

/-- The failures that are ruled out when a rule is read. -/
def Failure.isPrevented : Failure → Bool
  | filterNotSupported _ | filterRequired _ _ | mergeOfElements => true
  | notAnArray _ _ none => true
  | refusedWrite _ r | elementWrite _ _ _ r => decide (r = .currentNotWritable)
  | _ => false

namespace Steps

variable {old : Option Value} {s : Segment} {steps rest : List Segment} {new : Value}

/-- A key or a position is not refused because of `@`. -/
theorem answer_set_ne_of_not_accepts (hs : s ≠ .current)
    (h : (container old).accepts s = false) :
    (set old (s :: rest) new).answer ≠ .error .currentNotWritable := by
  cases hc : container old with
  | object fields =>
    have hkey : s.key? = none := by simpa [hc, Value.accepts] using h
    cases s with
    | current => exact absurd rfl hs
    | _ => cases hkey
  | array items =>
    rcases s with name | i | -
    · simp [set, hc]
    · have hpos : position? i items.length = none := by simpa [hc, Value.accepts] using h
      simp [set, hc, hpos]
    · exact absurd rfl hs
  | _ =>
    rw [set, hc]
    intro hrefused
    cases hrefused

/-- A write whose steps are all keys and positions is not refused because of `@`. -/
theorem answer_set_ne (hsteps : .current ∉ steps) :
    (set old steps new).answer ≠ .error .currentNotWritable := by
  induction steps generalizing old with
  | nil => nofun
  | cons s rest ih =>
    obtain ⟨hs, hrest⟩ := Segment.current_notMem_cons.1 hsteps
    cases hacc : (container old).accepts s with
    | true =>
      have hbelow := @ih ((container old).child? s) hrest
      rw [set_cons_of_accepts hacc]
      rcases hanswer : (set ((container old).child? s) rest new).answer with r | x
      · cases r with
        | currentNotWritable => exact absurd hanswer hbelow
        | _ => nofun
      · nofun
    | false => exact answer_set_ne_of_not_accepts hs hacc

end Steps

namespace Effect

variable {α β : Type}

/-- If there is a failure, it is none of those that reading prevents. -/
def Open (e : Effect α) : Prop := ∀ f, e.failure = some f → f.isPrevented = false

@[simp] theorem open_unchanged (a : α) : (unchanged a).Open := nofun

@[simp] theorem open_changed (a : α) (line : String) : (changed a line).Open := nofun

@[simp] theorem open_warned (a : α) (line : String) : (warned a line).Open := nofun

@[simp] theorem open_failed {a : α} {f : Failure} :
    (failed a f).Open ↔ f.isPrevented = false := by
  constructor
  · exact fun h => h f rfl
  · rintro h _ ⟨⟩
    exact h

@[simp] theorem open_lift {f : α → β} {e : Effect α} : (e.lift f).Open ↔ e.Open := Iff.rfl

end Effect

namespace Run

open Effect

variable {doc : Value}

/-- A refused write to a path without `@` is left to the run. -/
theorem isPrevented_refusedWrite {p : Path} {root new : Value} {r : Refusal}
    (hp : .current ∉ p.steps) (h : (p.set root new).answer = .error r) :
    (Failure.refusedWrite p r).isPrevented = false := by
  refine decide_eq_false ?_
  rintro rfl
  exact Steps.answer_set_ne hp h

/-! ### Fields -/

theorem open_set (clock : Clock) {p : Path} (hp : .current ∉ p.steps) (l : Literal)
    (doc : Value) : (set clock p l doc).Open := by
  simp only [set]
  split
  · exact open_unchanged _
  · split
    · rename_i r hr
      exact open_failed.2 (isPrevented_refusedWrite hp hr)
    · exact open_changed _ _
    · exact open_changed _ _

theorem open_delete (p : Path) (doc : Value) : (delete p doc).Open := by
  unfold delete
  split
  · exact open_changed _ _
  · exact open_warned _ _

theorem open_moveValue {source target : Path} (ht : .current ∉ target.steps) (v doc : Value) :
    (moveValue source target v doc).Open := by
  simp only [moveValue]
  split
  · exact open_changed _ _
  · split
    · rename_i r hr
      exact open_failed.2 (isPrevented_refusedWrite ht hr)
    · exact open_changed _ _

theorem open_rename {source target : Path} (ht : .current ∉ target.steps) (doc : Value) :
    (rename source target doc).Open := by
  have h := renames source target doc
  generalize rename source target doc = effect at h ⊢
  cases h with
  | missing => exact open_warned _ _
  | same => exact open_unchanged _
  | intoSelf => exact open_failed.2 rfl
  | moved => exact open_moveValue ht _ doc
  | takenOver => exact open_changed _ _
  | taken => exact open_failed.2 rfl

theorem open_step [Decimals] (verb : Keyword) (word : String) {p : Path} (hp : .current ∉ p.steps)
    (amount : Number) (doc : Value) : (step verb word p amount doc).Open := by
  simp only [step]
  split
  · exact open_failed.2 rfl
  · split
    · rename_i r hr
      exact open_failed.2 (isPrevented_refusedWrite hp hr)
    · exact open_changed _ _

/-! ### Elements -/

/-- The first assignment that is refused is not refused because of `@`. -/
theorem refused_assignAll_ne {values : List (Path × Value)}
    (hvalues : ∀ a ∈ values, .current ∉ a.1.steps) {v : Value} {p : Path} {r : Refusal}
    (h : (assignAll v values).refused = some (p, r)) : r ≠ .currentNotWritable := by
  induction values generalizing v with
  | nil => cases h
  | cons a rest ih =>
    obtain ⟨q, new⟩ := a
    obtain ⟨hq, hrest⟩ := List.forall_mem_cons.1 hvalues
    simp only [assignAll] at h
    split at h
    · exact ih hrest h
    · rename_i r' hr
      obtain ⟨-, rfl⟩ := Prod.mk.inj (Option.some.inj h)
      rintro rfl
      exact Steps.answer_set_ne hq hr

theorem open_updateFrom {target : Path} {test : Value → Bool} {values : List (Path × Value)}
    (hvalues : ∀ a ∈ values, .current ∉ a.1.steps) (index : Nat) (items : List Value) :
    (updateFrom target test values index items).Open := by
  induction items generalizing index with
  | nil => exact open_unchanged _
  | cons item rest ih =>
    rw [updateFrom]
    split
    · dsimp only
      split
      · rename_i p r hr
        exact open_failed.2 (decide_eq_false (refused_assignAll_ne hvalues hr))
      · exact ih (index + 1)
    · exact ih (index + 1)

/-- Where the filter is as the verb needs it, a verb on elements fails for its own reasons only. -/
theorem open_editElements (clock : Clock) (target : Path) {filter : Option Condition}
    {verb : Verb} (hfilter : filter.isSome = verb.needsFilter)
    (hfields : ∀ p ∈ verb.fields, .current ∉ p.steps) (hmerge : ∀ l deep, verb ≠ .merge l deep)
    (items : List Value) : (editElements clock target filter verb items).Open := by
  cases verb with
  | append l => exact open_changed _ _
  | prepend l => exact open_changed _ _
  | insert l index => exact open_changed _ _
  | removeAll l =>
    simp only [editElements]
    split
    · exact open_warned _ _
    · exact open_changed _ _
  | removeFirst l =>
    simp only [editElements]
    split
    · exact open_changed _ _
    · exact open_warned _ _
  | removeMatching =>
    obtain ⟨c, rfl⟩ := Option.isSome_iff_exists.1 hfilter
    simp only [editElements, withFilter]
    split
    · exact open_warned _ _
    · exact open_changed _ _
  | sort by_ direction =>
    simp only [editElements, sort]
    split
    · exact open_unchanged _
    · split <;> exact open_changed _ _
  | moveIndex source destination =>
    simp only [editElements, moveIndex]
    split
    · exact open_failed.2 rfl
    · split
      · exact open_unchanged _
      · exact open_changed _ _
  | moveMatching d =>
    obtain ⟨c, rfl⟩ := Option.isSome_iff_exists.1 hfilter
    simp only [editElements, withFilter, moveMatching]
    split
    · split
      · exact open_unchanged _
      · exact open_changed _ _
    · exact open_warned _ _
    · exact open_warned _ _
  | deduplicate =>
    simp only [editElements]
    split
    · exact open_unchanged _
    · exact open_changed _ _
  | update assignments =>
    obtain ⟨c, rfl⟩ := Option.isSome_iff_exists.1 hfilter
    simp only [editElements, withFilter, update]
    split
    · refine open_updateFrom (fun a ha => ?_) 0 items
      obtain ⟨⟨p, l⟩, hmem, rfl⟩ := List.mem_map.1 ha
      exact hfields p (List.mem_map_of_mem hmem)
    · exact open_warned _ _
  | merge l deep => exact absurd rfl (hmerge l deep)

/-! ### Collections -/

theorem open_merge (clock : Clock) {target : Path} (ht : .current ∉ target.steps) (l : Literal)
    (deep : Bool) (doc : Value) : (merge clock target l deep doc).Open := by
  have h := merges clock target l deep doc
  generalize merge clock target l deep doc = effect at h ⊢
  cases h with
  | unchanged => exact open_unchanged _
  | changed => exact open_changed _ _
  | added => exact open_changed _ _
  | refused hrefused => exact open_failed.2 (isPrevented_refusedWrite ht hrefused)
  | notAnObject => exact open_failed.2 rfl
  | valueNotAnObject => exact open_failed.2 rfl

/-- The array that an inserting verb makes is there when it is looked up. -/
theorem open_editArray (clock : Clock) {target : Path} (ht : .current ∉ target.steps)
    {filter : Option Condition} {verb : Verb} (hfilter : filter.isSome = verb.needsFilter)
    (hfields : ∀ p ∈ verb.fields, .current ∉ p.steps) (hmerge : ∀ l deep, verb ≠ .merge l deep)
    (doc : Value) : (editArray clock target filter verb doc).Open := by
  have hopen : ∀ items doc, (onArray clock target filter verb items doc).Open := fun items _ =>
    open_lift.2 (open_editElements clock target hfilter hfields hmerge items)
  have h := editsArray clock target filter verb doc
  generalize editArray clock target filter verb doc = effect at h ⊢
  cases h with
  | found => exact hopen _ _
  | made => exact hopen _ _
  | refused hinserting hrefused => exact open_failed.2 (isPrevented_refusedWrite ht hrefused)
  | missing => exact open_warned _ _
  | other => exact open_failed.2 rfl

theorem open_collection (clock : Clock) {target : Path} (ht : .current ∉ target.steps)
    {filter : Option Condition} {verb : Verb} (hfilter : filter.isSome = verb.needsFilter)
    (hfields : ∀ p ∈ verb.fields, .current ∉ p.steps) (doc : Value) :
    (collection clock target filter verb doc).Open := by
  have htakes : (filter.isSome && !verb.takesFilter) = false := by
    rw [hfilter]
    cases verb <;> rfl
  unfold collection
  rw [htakes, if_neg Bool.false_ne_true]
  cases verb with
  | merge l deep => exact open_merge clock ht l deep doc
  | _ => exact open_editArray clock ht hfilter hfields nofun doc

/-! ### Runs -/

/-- A run fails as one of its operations does. -/
theorem open_operations [Decimals] {clock : Clock} {ops : List Operation}
    (h : ∀ op ∈ ops, ∀ doc, (op.apply clock doc).Open) (doc : Value) :
    (operations clock ops doc).Open := by
  induction ops generalizing doc with
  | nil => exact open_unchanged _
  | cons op rest ih =>
    obtain ⟨hop, hrest⟩ := List.forall_mem_cons.1 h
    simp only [operations]
    split
    · exact hop doc
    · exact ih hrest _

end Run

/-- An operation on a field is left to the run. -/
theorem Operation.open_apply_of_isOnFields [Decimals] {op : Operation} (h : op.WellFormed)
    (hop : op.isOnFields = true) (clock : Clock) (doc : Value) : (op.apply clock doc).Open := by
  have hsteps : ∀ p ∈ op.places, .current ∉ p.steps := fun p hp => h.current_notMem hp
  cases op with
  | set p l => exact Run.open_set clock (hsteps p List.mem_cons_self) l doc
  | delete p => exact Run.open_delete p doc
  | rename source target =>
    exact Run.open_rename (hsteps target (List.mem_cons_of_mem _ List.mem_cons_self)) doc
  | increment p amount => exact Run.open_step _ _ (hsteps p List.mem_cons_self) _ doc
  | decrement p amount => exact Run.open_step _ _ (hsteps p List.mem_cons_self) _ doc
  | collection target filter verb => cases hop

namespace Action

/-- **What reading checks, a run does not fail on.**  Rule text has the shape that the checks
ask for, and no run of it ends in a failure that they prevent. -/
theorem shape_and_failures_of_ofText [Decimals] {text : String} {action : Action}
    (htext : Action.ofText text = .ok action) :
    action.Shape ∧ ∀ (clock : Clock) (doc : Value) (failure : Failure),
      (Run.operations clock action.operations doc).failure = some failure →
        failure.isPrevented = false := by
  have hshape := shape_of_ofText htext
  have hwf := wellFormed_of_ofText htext
  refine ⟨hshape, fun clock doc => Run.open_operations (fun op hop doc => ?_) doc⟩
  cases hshape with
  | fields verb hne h =>
    exact Operation.open_apply_of_isOnFields (hwf.operations op hop)
      (Grammar.isOnFields_of_fieldVerb? (h op hop)) clock doc
  | collection hfilter hfields =>
    obtain rfl := List.mem_singleton.1 hop
    have ht := (hwf.operations _ hop).current_notMem List.mem_cons_self
    exact Run.open_collection clock ht hfilter
      (fun p hp => Path.current_notMem_steps (hfields p hp).current_notMem_tail) doc

/-- A write that is refused below a value is left to the run. -/
theorem shape_and_failures_of_refused_element :
    let clock : Clock := ⟨2024, 1, 1, 0, 0, 0, 0⟩
    let a : Path := ⟨[.key "a"]⟩
    let b : Path := ⟨[.current, .key "b", .key "c"]⟩
    let action : Action := ⟨[.collection a (some (.truthy ⟨[.key "b"]⟩)) (.update [(b, .null)])]⟩
    let doc : Value := .object [("a", .array [.object [("b", .boolean true)]])]
    let failure : Failure := .elementWrite a 0 b (.notContainer 1 .boolean)
    action.Shape ∧ (Run.operations clock action.operations doc).failure = some failure ∧
      failure.isPrevented = false := by
  intro clock a b action doc failure
  have htext : Action.ofText "FOR a WHERE b SET @.b.c null" = .ok action := by decide +kernel
  obtain ⟨hshape, hfailures⟩ := shape_and_failures_of_ofText htext
  exact ⟨hshape, rfl, hfailures clock doc failure rfl⟩

end Action

end MetadataRules
