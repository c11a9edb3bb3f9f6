/-
MetadataRules/Proofs/Rule/WellFormed.lean

What every action of rule text looks like.

Rule text writes `@` in the first place of a path only, names a field and not
the whole document where a verb works on a field, and holds either operations
on fields alone or a single operation on a collection
(`Action.wellFormed_of_ofText`).  Operations on fields are all of one verb, and
one on a collection has a filter exactly when its verb needs one
(`Action.shape_of_ofText`).

Everything here is read off the grammar, one lemma for each kind of phrase.
-/
import MetadataRules.Proofs.Rule.Action

namespace MetadataRules

/-! ### Well-formed actions -/

/-- A path as rule text writes it: not empty, and `@` in the first place only. -/
structure Path.WellFormed (p : Path) : Prop where
  ne_nil : p.segments ≠ []
  current_notMem_tail : .current ∉ p.segments.tail

/-- No step of a well-formed path is `@`. -/
theorem Path.current_notMem_steps {p : Path} (h : .current ∉ p.segments.tail) :
    .current ∉ p.steps := by
  obtain ⟨segments⟩ := p
  unfold Path.steps
  split
  · rename_i rest heq
    obtain rfl : segments = .current :: rest := heq
    exact h
  · rename_i hne
    rcases segments with - | ⟨s, rest⟩
    · nofun
    · have hs : s ≠ .current := fun heq => hne rest (by rw [heq])
      simpa [eq_comm, hs] using h

/-- The paths that an operation names. -/
def Operation.places : Operation → List Path
  | set p _ => [p]
  | delete p => [p]
  | rename source target => [source, target]
  | increment p _ => [p]
  | decrement p _ => [p]
  | collection target _ _ => [target]

/-- The verb of an operation on a field. -/
def Operation.fieldVerb? : Operation → Option FieldVerb
  | set _ _ => some .set
  | delete _ => some .delete
  | rename _ _ => some .rename
  | increment _ _ => some .increment
  | decrement _ _ => some .decrement
  | collection _ _ _ => none

/-- The verbs that make no sense without a filter. -/
def Verb.needsFilter : Verb → Bool
  | removeMatching | moveMatching _ | update _ => true
  | _ => false

/-- The fields that a verb writes to in each element. -/
def Verb.fields : Verb → List Path
  | update assignments => assignments.map Prod.fst
  | _ => []

/-- True of every operation but those on collections. -/
def Operation.isOnFields : Operation → Bool
  | collection _ _ _ => false
  | _ => true

/-- An operation as rule text writes it: a verb on fields never has the whole document for a
field. -/
structure Operation.WellFormed (op : Operation) : Prop where
  places : ∀ p ∈ op.places, p.WellFormed
  fields : op.isOnFields = true → ∀ p ∈ op.places, p.isCurrent = false

/-- An action as rule text writes it: operations on fields, or one operation on a collection. -/
structure Action.WellFormed (action : Action) : Prop where
  operations : ∀ op ∈ action.operations, op.WellFormed
  verbs : (∀ op ∈ action.operations, op.isOnFields = true) ∨
    ∃ target filter verb, action.operations = [.collection target filter verb]

theorem Operation.WellFormed.current_notMem {op : Operation} (h : op.WellFormed) {p : Path}
    (hp : p ∈ op.places) : .current ∉ p.steps :=
  Path.current_notMem_steps (h.places p hp).current_notMem_tail

/-! ### Phrases -/

namespace Grammar

variable {ts : List Token}

theorem current_notMem_of_stepsOf {ss : List Segment} (h : StepsOf ts ss) : .current ∉ ss := by
  induction h with
  | nil => exact List.not_mem_nil
  | cons h _ ih => cases h <;> exact List.not_mem_cons_of_ne_of_not_mem nofun ih

theorem wellFormed_of_pathOf {p : Path} (h : PathOf ts p) : p.WellFormed := by
  obtain ⟨-, hrest⟩ := h
  exact ⟨List.cons_ne_nil _ _, current_notMem_of_stepsOf hrest⟩

theorem wellFormed_of_fieldOf {p : Path} (h : FieldOf ts p) :
    p.WellFormed ∧ p.isCurrent = false := by
  refine ⟨wellFormed_of_pathOf h.path, ?_⟩
  rw [← Bool.not_eq_true]
  exact mt (Read.isCurrent_eq_true_iff h.path).1 h.ne_current

/-- Each item of a list is a phrase between its commas. -/
theorem exists_of_separatedOf {α : Type} {phrase : List Token → α → Prop} {as : List α}
    (h : SeparatedOf phrase ts as) : ∀ a ∈ as, ∃ us, us ⊆ ts ∧ phrase us a := by
  induction h with
  | single h => exact List.forall_mem_singleton.2 ⟨_, List.Subset.refl _, h⟩
  | cons h _ ih =>
    refine List.forall_mem_cons.2 ⟨⟨_, List.subset_append_left _ _, h⟩, fun a ha => ?_⟩
    obtain ⟨us, hus, hphrase⟩ := ih a ha
    refine ⟨us, List.Subset.trans ?_ (List.subset_append_right _ _), hphrase⟩
    exact List.subset_cons_of_subset _ hus

theorem ne_nil_of_separatedOf {α : Type} {phrase : List Token → α → Prop} {as : List α}
    (h : SeparatedOf phrase ts as) : as ≠ [] := by
  cases h <;> exact List.cons_ne_nil _ _

/-- What a verb does to a field is an operation with that verb on that field. -/
theorem wellFormed_of_fieldItemOf {verb : FieldVerb} {op : Operation}
    (h : FieldItemOf verb ts op) : op.WellFormed ∧ op.fieldVerb? = some verb := by
  have one : ∀ {op : Operation} {p : Path} {ts : List Token}, FieldOf ts p → op.places = [p] →
      op.WellFormed := by
    intro op p ts hp hop
    obtain ⟨hwf, hcurrent⟩ := wellFormed_of_fieldOf hp
    constructor <;> simp [hop, hwf, hcurrent]
  cases h with
  | set hp => exact ⟨one hp rfl, rfl⟩
  | delete hp => exact ⟨one hp rfl, rfl⟩
  | rename hp hq =>
    obtain ⟨hwf, hcurrent⟩ := wellFormed_of_fieldOf hp
    obtain ⟨hwf', hcurrent'⟩ := wellFormed_of_fieldOf hq
    refine ⟨⟨?_, ?_⟩, rfl⟩ <;> simp [Operation.places, hwf, hcurrent, hwf', hcurrent']
  | increment hp => exact ⟨one hp rfl, rfl⟩
  | decrement hp => exact ⟨one hp rfl, rfl⟩

theorem wellFormed_of_fieldItemsOf {verb : FieldVerb} {ops : List Operation}
    (h : SeparatedOf (FieldItemOf verb) ts ops) :
    ∀ op ∈ ops, op.WellFormed ∧ op.fieldVerb? = some verb := by
  intro op hop
  obtain ⟨us, -, hof⟩ := exists_of_separatedOf h op hop
  exact wellFormed_of_fieldItemOf hof

theorem isOnFields_of_fieldVerb? {op : Operation} {verb : FieldVerb}
    (h : op.fieldVerb? = some verb) : op.isOnFields = true := by
  cases op with
  | collection => cases h
  | _ => rfl

theorem shape_of_plainVerbOf {verb : Verb} (h : PlainVerbOf ts verb) :
    verb.needsFilter = false ∧ verb.fields = [] := by
  cases h <;> exact ⟨rfl, rfl⟩

theorem shape_of_filteredVerbOf {verb : Verb} (h : FilteredVerbOf ts verb) :
    verb.needsFilter = true ∧ ∀ p ∈ verb.fields, p.WellFormed := by
  cases h with
  | set h =>
    refine ⟨rfl, fun p hp => ?_⟩
    obtain ⟨a, ha, rfl⟩ := List.mem_map.1 hp
    obtain ⟨us, -, hpath, -⟩ := exists_of_separatedOf h a ha
    exact wellFormed_of_pathOf hpath
  | _ => exact ⟨rfl, nofun⟩

theorem wellFormed_collection {target : Path} (h : target.WellFormed) (filter : Option Condition)
    (verb : Verb) : (Operation.collection target filter verb).WellFormed :=
  ⟨List.forall_mem_singleton.2 h, nofun⟩

theorem wellFormed_of_actionOf {action : Action} (h : ActionOf ts action) :
    action.WellFormed := by
  cases h with
  | fields _ h =>
    have hops := wellFormed_of_fieldItemsOf h
    exact ⟨fun op hop => (hops op hop).1,
      .inl fun op hop => isOnFields_of_fieldVerb? (hops op hop).2⟩
  | plain hp _ =>
    exact ⟨List.forall_mem_singleton.2 (wellFormed_collection (wellFormed_of_pathOf hp) _ _),
      .inr ⟨_, _, _, rfl⟩⟩
  | filtered hp _ _ =>
    exact ⟨List.forall_mem_singleton.2 (wellFormed_collection (wellFormed_of_pathOf hp) _ _),
      .inr ⟨_, _, _, rfl⟩⟩

end Grammar

/-! ### Actions -/

/-- The shape of an action: fields with one verb, or one verb on a collection with a filter
exactly where the verb needs one. -/
inductive Action.Shape : Action → Prop
  | fields {ops : List Operation} (verb : FieldVerb) (hne : ops ≠ [])
      (h : ∀ op ∈ ops, op.fieldVerb? = some verb) : Action.Shape ⟨ops⟩
  | collection {target : Path} {filter : Option Condition} {verb : Verb}
      (hfilter : filter.isSome = verb.needsFilter) (hfields : ∀ p ∈ verb.fields, p.WellFormed) :
      Action.Shape ⟨[.collection target filter verb]⟩

theorem Grammar.shape_of_actionOf {ts : List Token} {action : Action} (h : ActionOf ts action) :
    action.Shape := by
  cases h with
  | fields _ h =>
    exact .fields _ (ne_nil_of_separatedOf h) fun op hop => (wellFormed_of_fieldItemsOf h op hop).2
  | plain _ h =>
    obtain ⟨hneeds, hfields⟩ := shape_of_plainVerbOf h
    exact .collection hneeds.symm (by rw [hfields]; exact nofun)
  | filtered _ _ h =>
    obtain ⟨hneeds, hfields⟩ := shape_of_filteredVerbOf h
    exact .collection hneeds.symm hfields

namespace Action

variable {text : String} {action : Action}

/-- The tokens of a text that is read as an action are that action by the grammar. -/
theorem exists_actionOf (h : Action.ofText text = .ok action) :
    ∃ scan, tokenize text = .ok scan ∧ Grammar.ActionOf (Placed.tokens scan.tokens) action := by
  unfold Action.ofText readText at h
  split at h
  · cases h
  · rename_i scan hscan
    split at h
    · cases h
    · rename_i hread
      rw [← Except.ok.inj h]
      exact ⟨scan, hscan, Read.wholeAction_eq_ok_iff.1 hread⟩

/-- **Every action of rule text is well-formed.** -/
theorem wellFormed_of_ofText (h : Action.ofText text = .ok action) : action.WellFormed := by
  obtain ⟨scan, -, hof⟩ := exists_actionOf h
  exact Grammar.wellFormed_of_actionOf hof

theorem shape_of_ofText (h : Action.ofText text = .ok action) : action.Shape := by
  obtain ⟨scan, -, hof⟩ := exists_actionOf h
  exact Grammar.shape_of_actionOf hof

end Action

end MetadataRules
