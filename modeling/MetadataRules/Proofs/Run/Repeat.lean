/-
MetadataRules/Proofs/Run/Repeat.lean

Running a rule again.

A second run of a rule on what the first one left changes nothing, for every
operation whose effect is a state and not a step: a write, a removal, a rename,
a merge, and the verbs that sort, move, drop or write to elements
(`Action.run_again`).  It does not matter how the first run ended.

Each operation leaves the document as it was or brings about a condition under
which it has nothing to do (`Run.set_told`, `Run.delete_told`,
`Run.rename_told`, `Run.merge_told`); verbs on elements settle the elements.
-/
import MetadataRules.Number.Fixed
import MetadataRules.Proofs.Path.Overlap
import MetadataRules.Proofs.Run.Settled
import MetadataRules.Proofs.Run.Stable

namespace MetadataRules

/-! ### Documents -/

/-- A value in which no object holds a key twice and no number is not a number. -/
def Value.IsPlain (v : Value) : Prop :=
  v.isNaNFree = true ∧ v.hasUniqueKeys = true

theorem Value.stable_isPlain : Value.Stable Value.IsPlain :=
  Value.stable_isNaNFree.and Value.stable_hasUniqueKeys

theorem Value.IsPlain.equal_refl {v : Value} (h : v.IsPlain) : v.equal v = true :=
  Value.equal_refl h.1 h.2

/-- The literals of rule text stand for plain values. -/
theorem Action.isPlain_literals {text : String} {action : Action}
    (h : Action.ofText text = .ok action) (clock : Clock) :
    ∀ op ∈ action.operations, ∀ l ∈ op.literals, (l.resolve clock).IsPlain := by
  refine stable_literals h Value.stable_isPlain (fun n hn => ⟨?_, rfl⟩) clock
  show (!n.isNaN) = true
  rw [hn.isNaN_eq_false]
  rfl

/-- A path whose last segment is a key. -/
def Path.endsInKey (p : Path) : Bool :=
  match p.segments.getLast? with
  | some (.key _) => true
  | _ => false

theorem Path.exists_steps_of_endsInKey {p : Path} (h : p.endsInKey = true) :
    ∃ place key, p.steps = place ++ [.key key] := by
  unfold endsInKey at h
  split at h
  · rename_i key hlast
    obtain ⟨place, hsegments⟩ := List.getLast?_eq_some_iff.1 hlast
    unfold steps
    split
    · rename_i rest heq
      rw [hsegments] at heq
      rcases place with - | ⟨s, place⟩
      · cases heq
      · exact ⟨place, key, (List.cons.inj heq).2.symm⟩
    · exact ⟨place, key, hsegments⟩
  · cases h

namespace Run

open Effect

variable {clock : Clock} {doc : Value}

/-! ### Fields -/

/-- A write that is told of is read back. -/
theorem set_told {p : Path} (hp : .current ∉ p.steps) (l : Literal) (doc : Value) :
    Whole doc (· = doc) (fun after => p.get? after = some (l.resolve clock))
      (set clock p l doc) := by
  simp only [set]
  split
  · exact .unchanged rfl
  · split
    · rename_i r hr
      rw [Path.value_set_of_error hp hr]
      exact .failed _
    · rename_i hx
      refine .changed ?_ _
      exact Steps.get?_set_self hx
    · rename_i hx
      refine .changed ?_ _
      exact Steps.get?_set_self hx

/-- A removal that is told of leaves nothing to remove. -/
theorem delete_told {p : Path} (hp : .current ∉ p.steps) (hkey : p.endsInKey = true)
    (hu : doc.hasUniqueKeys = true) :
    Whole doc (· = doc) (fun after => p.erase? after = none) (delete p doc) := by
  obtain ⟨place, key, hsteps⟩ := Path.exists_steps_of_endsInKey hkey
  unfold delete
  split
  · rename_i old rest herase
    refine .changed ?_ _
    rw [Path.erase?, hsteps] at herase ⊢
    rw [hsteps, List.mem_append, not_or] at hp
    exact Steps.erase?_erase hp.1 hu herase
  · exact .warned _

/-- Nothing is found at a path that was removed. -/
theorem get?_without_self {p : Path} (hp : .current ∉ p.steps) (hkey : p.endsInKey = true)
    (hu : doc.hasUniqueKeys = true) : p.get? (without p doc) = none := by
  have hmissing : p.erase? (without p doc) = none := by
    unfold without
    rcases herase : p.erase? doc with - | ⟨old, rest⟩
    · exact herase
    · have hwhole := delete_told hp hkey hu
      rw [delete, herase] at hwhole
      cases hwhole with
      | changed h line => exact h
  -- a value that is still there could be removed again
  obtain ⟨place, key, hsteps⟩ := Path.exists_steps_of_endsInKey hkey
  rcases hget : p.get? (without p doc) with - | v
  · rfl
  · obtain ⟨after, herase⟩ := Steps.exists_erase? (by simp [hsteps]) hp hget
    rw [Path.erase?, herase] at hmissing
    cases hmissing

/-- A value that was moved is found no longer where it was. -/
theorem moveValue_told {source target : Path} (hs : .current ∉ source.steps)
    (ht : .current ∉ target.steps) (hkey : source.endsInKey = true)
    (hne : source.steps ≠ target.steps) (hu : doc.hasUniqueKeys = true) {v : Value}
    (hv : v.hasUniqueKeys = true) :
    Whole doc (· = doc) (fun after => source.get? after = none)
      (moveValue source target v doc) := by
  simp only [moveValue]
  split
  · rename_i renamed hrenamed
    obtain ⟨parent, old, new, fields, hsource, htarget, hparent, rfl⟩ :=
      renameInPlace?_eq_some hs ht hrenamed
    -- in place: no other entry of the object has the old name
    have hkeys := Value.stable_hasUniqueKeys.get? hu hparent
    have hnames : old ≠ new := by
      rintro rfl
      exact hne (hsource.trans htarget.symm)
    refine .changed ?_ _
    rw [Path.get?, hsource, Steps.get?_concat_key (Steps.get?_replace_self hparent)]
    exact Fields.get?_rename_old (Value.hasUniqueKeys_object_iff.1 hkeys).1 hnames
  · split
    · rename_i r hr
      rw [Path.value_set_of_error ht hr]
      exact .failed _
    · have hwritten := target.stable_set Value.stable_hasUniqueKeys hu hv
      refine .changed ?_ _
      exact get?_without_self hs hkey hwritten

/-- A rename that is told of leaves nothing at its source. -/
theorem rename_told {source target : Path} (hs : .current ∉ source.steps)
    (ht : .current ∉ target.steps) (hkey : source.endsInKey = true)
    (hu : doc.hasUniqueKeys = true) :
    Whole doc (· = doc) (fun after => source.get? after = none) (rename source target doc) := by
  have h := renames source target doc
  generalize rename source target doc = effect at h ⊢
  cases h with
  | missing => exact .warned _
  | same => exact .unchanged rfl
  | intoSelf => exact .failed _
  | moved hv hne => exact moveValue_told hs ht hkey hne hu (Value.stable_hasUniqueKeys.get? hu hv)
  | takenOver =>
    refine .changed ?_ _
    exact get?_without_self hs hkey hu
  | taken => exact .failed _

theorem settled_set {p : Path} (hp : .current ∉ p.steps) {l : Literal}
    (hequal : (l.resolve clock).equal (l.resolve clock) = true) (doc : Value) :
    Settled (set clock p l) (set clock p l doc).after := by
  refine ((set_told hp l doc).mono (fun _ => .inl) fun _ => id).settled fun after h => ?_
  simp only [Settled, set, h, Option.any_some, hequal, if_true]
  exact ⟨rfl, rfl⟩

theorem settled_delete {p : Path} (hp : .current ∉ p.steps) (hkey : p.endsInKey = true)
    (hu : doc.hasUniqueKeys = true) : Settled (delete p) (delete p doc).after := by
  refine ((delete_told hp hkey hu).mono (fun _ => .inl) fun _ => id).settled fun after h => ?_
  rw [Settled, delete, h]
  exact ⟨rfl, rfl⟩

theorem settled_rename {source target : Path} (hs : .current ∉ source.steps)
    (ht : .current ∉ target.steps) (hkey : source.endsInKey = true)
    (hu : doc.hasUniqueKeys = true) :
    Settled (rename source target) (rename source target doc).after := by
  refine ((rename_told hs ht hkey hu).mono (fun _ => .inl) fun _ => id).settled fun after h => ?_
  rw [Settled, rename, h]
  exact ⟨rfl, rfl⟩

/-! ### Merges -/

/-- The object at a path is plain and has all that a merge would give it. -/
def IsMerged (clock : Clock) (target : Path) (l : Literal) (isDeep : Bool) (doc : Value) : Prop :=
  ∃ source existing, l.resolve clock = .object source ∧
    target.get? doc = some (.object existing) ∧
      Merge.ofDepth isDeep existing source = existing ∧ (Value.object existing).IsPlain

/-- A merge, told of or not, leaves nothing to merge. -/
theorem merge_told {target : Path} (ht : .current ∉ target.steps) {l : Literal} (isDeep : Bool)
    (hl : (l.resolve clock).IsPlain) (hdoc : doc.IsPlain) :
    Whole doc (IsMerged clock target l isDeep) (IsMerged clock target l isDeep)
      (merge clock target l isDeep doc) := by
  -- what was merged once has all that a second merge would write
  have hmerged : ∀ source existing, l.resolve clock = .object source →
      target.get? doc = some (.object existing) → IsMerged clock target l isDeep
        (target.replace doc (.object (Merge.ofDepth isDeep existing source))) := by
    intro source existing hsource hget
    have hplain : (Value.object source).IsPlain := hsource ▸ hl
    exact ⟨source, _, hsource, Steps.get?_replace_self hget, Merge.ofDepth_again isDeep hplain.2,
      Merge.stable_ofDepth Value.stable_isPlain isDeep (Value.stable_isPlain.get? hdoc hget) hplain⟩
  have h := merges clock target l isDeep doc
  generalize merge clock target l isDeep doc = effect at h ⊢
  cases h with
  | unchanged hsource hget => exact .unchanged (hmerged _ _ hsource hget)
  | changed hsource hget => exact .changed (hmerged _ _ hsource hget) _
  | @added source old hsource hnull hwritten =>
    have hplain : (Value.object source).IsPlain := hsource ▸ hl
    have hget : target.get? (target.set doc (l.resolve clock)).value = some (.object source) :=
      (Steps.get?_set_self hwritten).trans (congrArg some hsource)
    exact .changed ⟨source, source, hsource, hget, Merge.ofDepth_self isDeep hplain.2, hplain⟩ _
  | refused hrefused =>
    rw [Path.value_set_of_error ht hrefused]
    exact .failed _
  | notAnObject => exact .failed _
  | valueNotAnObject => exact .failed _

theorem settled_merge {target : Path} (ht : .current ∉ target.steps) {l : Literal} (isDeep : Bool)
    (hl : (l.resolve clock).IsPlain) (hdoc : doc.IsPlain) :
    Settled (merge clock target l isDeep) (merge clock target l isDeep doc).after := by
  refine ((merge_told ht isDeep hl hdoc).mono (fun _ => .inr) fun _ => id).settled ?_
  rintro after ⟨source, existing, hsource, hget, hagain, hplain⟩
  rw [Merge.ofDepth] at hagain
  simp only [Settled, merge, hsource, hget, Option.getD_some, hagain, hplain.equal_refl, if_true]
  exact ⟨Steps.replace_eq_self hget, rfl⟩

/-! ### Arrays -/

variable {target : Path} {filter : Option Condition} {verb : Verb} {items : List Value}

/-- An edit settles a document where it settles the elements of every array. -/
theorem settled_editArray (hverb : verb.isInserting = false)
    (hitems : ∀ items, target.get? doc = some (.array items) →
      Settled (editElements clock target filter verb)
        (editElements clock target filter verb items).after) :
    Settled (editArray clock target filter verb)
      (editArray clock target filter verb doc).after := by
  by_cases harray : ∃ items, target.get? doc = some (.array items)
  · obtain ⟨items, hget⟩ := harray
    obtain ⟨hafter, hchanges⟩ := hitems items hget
    rw [editArray_of_get? hget, onArray, Effect.lift]
    generalize (editElements clock target filter verb items).after = left at hafter hchanges ⊢
    have hleft : target.get? (target.replace doc (.array left)) = some (.array left) :=
      Steps.get?_replace_self hget
    rw [Settled, editArray_of_get? hleft, onArray, Effect.lift, hafter]
    exact ⟨Steps.replace_eq_self hleft, hchanges⟩
  · obtain ⟨hafter, hchanges⟩ :=
      editArray_idle clock filter hverb fun items hget => harray ⟨items, hget⟩
    exact settled_of_idle hafter hchanges

theorem settled_collection (ht : .current ∉ target.steps) (hverb : verb.isRepeatable = true)
    (hfields : ∀ p ∈ verb.fields, .current ∉ p.steps)
    (hliterals : ∀ l ∈ verb.literals, (l.resolve clock).IsPlain) (hdoc : doc.IsPlain) :
    Settled (collection clock target filter verb)
      (collection clock target filter verb doc).after := by
  cases hfilter : filter.isSome && !verb.takesFilter with
  | true =>
    have hfailed : collection clock target filter verb doc =
        .failed doc (.filterNotSupported verb.keyword) := if_pos hfilter
    refine settled_of_idle ?_ ?_ <;> rw [hfailed] <;> rfl
  | false =>
    by_cases hmerge : ∃ l isDeep, verb = .merge l isDeep
    · obtain ⟨l, isDeep, rfl⟩ := hmerge
      have hcollection : collection clock target filter (.merge l isDeep) =
          merge clock target l isDeep := by
        funext doc
        rw [collection, hfilter, if_neg Bool.false_ne_true]
      rw [hcollection]
      exact settled_merge ht isDeep (hliterals l List.mem_cons_self) hdoc
    · have hcollection : collection clock target filter verb =
          editArray clock target filter verb := by
        funext doc
        exact collection_eq_editArray hfilter fun l isDeep h => hmerge ⟨l, isDeep, h⟩
      rw [hcollection]
      refine settled_editArray ?_ fun items hget => ?_
      · cases verb <;> first | rfl | cases hverb
      · have hitems := Value.stable_isPlain.array_iff.1 (Value.stable_isPlain.get? hdoc hget)
        have hleft := stable_editElements Value.stable_isPlain hitems target filter
          fun l hl => hliterals l (verb.written_subset hl)
        exact settled_editElements hverb hfields fun v hv => (hleft v hv).equal_refl

end Run

/-! ### Runs -/

/-- The operations that have nothing to do a second time.  Counting goes on, and an element
that was removed by its index makes room for the next one. -/
def Operation.isRepeatable : Operation → Bool
  | set _ _ => true
  | delete p => p.endsInKey
  | rename source _ => source.endsInKey
  | collection _ _ verb => verb.isRepeatable
  | _ => false

namespace Operation

variable {op : Operation} {clock : Clock} {doc : Value}

theorem isPlain_apply [Decimals] (h : op.WellFormed) (hop : op.isRepeatable = true)
    (hliterals : ∀ l ∈ op.literals, (l.resolve clock).IsPlain) (hdoc : doc.IsPlain) :
    (op.apply clock doc).after.IsPlain := by
  refine op.stable_apply Value.stable_isPlain h (fun l hl => hliterals l (op.written_subset hl))
    (fun n amount hterms => ?_) hdoc
  cases op <;> first | cases hterms | cases hop

/-- What an operation leaves of a plain document is settled. -/
theorem settled_apply [Decimals] (h : op.WellFormed) (hop : op.isRepeatable = true)
    (hfields : ∀ target filter verb, op = .collection target filter verb →
      ∀ p ∈ verb.fields, p.WellFormed)
    (hliterals : ∀ l ∈ op.literals, (l.resolve clock).IsPlain) (hdoc : doc.IsPlain) :
    Effect.Settled (op.apply clock) (op.apply clock doc).after := by
  cases op with
  | set p l =>
    have hp := h.current_notMem List.mem_cons_self
    exact Run.settled_set hp (hliterals l List.mem_cons_self).equal_refl doc
  | delete p => exact Run.settled_delete (h.current_notMem List.mem_cons_self) hop hdoc.2
  | rename source target =>
    have hs := h.current_notMem List.mem_cons_self
    have ht := h.current_notMem (List.mem_cons_of_mem _ List.mem_cons_self)
    exact Run.settled_rename hs ht hop hdoc.2
  | collection target filter verb =>
    have ht := h.current_notMem List.mem_cons_self
    exact Run.settled_collection ht hop
      (fun p hp => Path.current_notMem_steps (hfields _ _ _ rfl p hp).current_notMem_tail)
      hliterals hdoc
  | _ => cases hop

end Operation

namespace Action

variable {text : String} {action : Action} {op : Operation} {doc : Value}

/-- The fields that rule text writes to in elements are well-formed paths. -/
theorem fields_of_shape (h : action.Shape) (hop : op ∈ action.operations) :
    ∀ target filter verb, op = .collection target filter verb →
      ∀ p ∈ verb.fields, p.WellFormed := by
  rintro target filter verb rfl
  cases h with
  | fields verb' _ h => cases h _ hop
  | collection _ hfields =>
    obtain ⟨rfl, rfl, rfl⟩ := Operation.collection.inj (List.mem_singleton.1 hop)
    exact hfields

/-- **A second run of a rule changes nothing**, however the first one ended. -/
theorem run_again [Decimals] (htext : Action.ofText text = .ok action)
    (hops : action.operations = [op]) (hop : op.isRepeatable = true) (clock : Clock)
    (hn : doc.isNaNFree = true) (hu : doc.hasUniqueKeys = true) :
    let first := action.run clock doc
    let second := action.run clock first.newData
    second.modified = false ∧ second.changes = [] ∧ second.newData = first.newData := by
  intro first second
  have hmem : op ∈ action.operations := hops ▸ List.mem_cons_self
  have hwf : op.WellFormed := (wellFormed_of_ofText htext).operations op hmem
  have hliterals := isPlain_literals htext clock op hmem
  have hplain := op.isPlain_apply hwf hop hliterals ⟨hn, hu⟩
  have hfields := fields_of_shape (shape_of_ofText htext) hmem
  have hsettled := op.settled_apply hwf hop hfields hliterals ⟨hn, hu⟩
  have hfirst : first.newData = (op.apply clock doc).after := by
    show (Run.operations clock action.operations doc).after = _
    rw [hops]
    exact (Run.operations_singleton clock op doc).1
  have hsecond : second.newData = first.newData := by
    show (Run.operations clock action.operations first.newData).after = _
    rw [hops, (Run.operations_singleton clock op _).1, hfirst]
    exact hsettled.1
  refine ⟨?_, ?_, hsecond⟩
  · show (!second.newData.equal first.newData) = false
    rw [hsecond, hfirst, hplain.equal_refl]
    rfl
  · show (Run.operations clock action.operations first.newData).changes = []
    rw [hops, (Run.operations_singleton clock op _).2, hfirst]
    exact hsettled.2

/-- After a write that makes an element match no longer, a second run finds none. -/
theorem run_again_update :
    let clock : Clock := ⟨2024, 1, 1, 0, 0, 0, 0⟩
    let a : Path := ⟨[.key "a"]⟩
    let b : Path := ⟨[.key "b"]⟩
    let op : Operation := .collection a (some (.truthy b)) (.update [(b, .boolean false)])
    let action : Action := ⟨[op]⟩
    let doc : Value := .object [("a", .array [.object [("b", .boolean true)]])]
    let first := action.run clock doc
    let second := action.run clock first.newData
    first.modified = true ∧ first.warning = none ∧
      second.modified = false ∧ second.changes = [] ∧ second.newData = first.newData ∧
        second.warning.isSome = true := by
  intro clock a b op action doc first second
  have htext : Action.ofText "FOR a WHERE b SET b false" = .ok action := by decide +kernel
  obtain ⟨hmodified, hchanges, hdata⟩ : second.modified = false ∧ second.changes = [] ∧
      second.newData = first.newData := run_again htext rfl rfl clock rfl rfl
  exact ⟨rfl, rfl, hmodified, hchanges, hdata, rfl⟩

end Action

end MetadataRules
