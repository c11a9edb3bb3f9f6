/-
MetadataRules/Proofs/Run/Operation.lean

What each operation may do to a document.

There is one law for each operation, all of one form: its effect is whole, with
a line it leaves a document touched along its paths only, and without one the
document it was given (`Run.set_whole`, `Run.rename_whole`, …).  An operation on
a collection may also leave an equal value at its target without a line
(`EqualAt`): it puts back what it compared.

What an operation with many ends can do is listed once, with all that is known
at each end (`Run.Renames`, `Run.Merges`, `Run.EditsArray`); its laws are proved
by cases on that list.

A failure inside an operation is a refused write, which leaves no trace, or
comes before anything is written.  The array that an inserting verb makes is no
exception: once it is there, the verb does not fail (`Run.editArray_whole`).

Writes to matching elements stand apart (`Run.collection_update_cases`).
-/
import MetadataRules.Proofs.Merge
import MetadataRules.Proofs.Rule.WellFormed
import MetadataRules.Proofs.Run.Elements
import MetadataRules.Proofs.Run.Touched

namespace MetadataRules

/-- The document is what it was, or has an equal value at a path. -/
inductive EqualAt (p : Path) (doc : Value) : Value → Prop
  | refl : EqualAt p doc doc
  | part {old new : Value} (hold : p.get? doc = some old) (h : new.equal old = true) :
      EqualAt p doc (p.replace doc new)

theorem EqualAt.touched {p : Path} {doc after : Value} (h : EqualAt p doc after) :
    Touched [p] doc after := by
  cases h with
  | refl => exact .refl
  | part hold h => exact .replace .refl List.mem_cons_self _

namespace Path

theorem steps_of_notMem {segments : List Segment} (h : .current ∉ segments) :
    Path.steps ⟨segments⟩ = segments := by
  unfold Path.steps
  split
  · rename_i rest heq
    obtain rfl : segments = .current :: rest := heq
    exact absurd List.mem_cons_self h
  · rfl

/-- Splitting off the key takes the last step away. -/
theorem steps_of_splitKey? {p parent : Path} {name : String} (hp : .current ∉ p.steps)
    (h : p.splitKey? = some (parent, name)) : p.steps = parent.steps ++ [.key name] := by
  unfold splitKey? at h
  split at h
  · rename_i key hlast
    obtain ⟨rfl, rfl⟩ := Prod.mk.inj (Option.some.inj h)
    obtain ⟨parent, hsteps⟩ := List.getLast?_eq_some_iff.1 hlast
    rw [hsteps, List.mem_append, not_or] at hp
    rw [hsteps, List.dropLast_concat, steps_of_notMem hp.1]
  · cases h

end Path

namespace Run

open Effect

variable {doc : Value}

/-! ### Fields -/

theorem set_whole (clock : Clock) {p : Path} (hp : .current ∉ p.steps) (l : Literal)
    (doc : Value) : Whole doc (· = doc) (Touched [p] doc) (set clock p l doc) := by
  simp only [set]
  split
  · exact .unchanged rfl
  · split
    · rename_i r hr
      rw [Path.value_set_of_error hp hr]
      exact .failed _
    · exact .changed (.set .refl List.mem_cons_self _) _
    · exact .changed (.set .refl List.mem_cons_self _) _

theorem delete_whole (p : Path) (doc : Value) :
    Whole doc (· = doc) (Touched [p] doc) (delete p doc) := by
  unfold delete
  split
  · rename_i old rest herase
    exact .changed (.erase .refl List.mem_cons_self herase) _
  · exact .warned _

theorem step_whole [Decimals] (verb : Keyword) (word : String) {p : Path}
    (hp : .current ∉ p.steps) (amount : Number) (doc : Value) :
    Whole doc (· = doc) (Touched [p] doc) (step verb word p amount doc) := by
  simp only [step]
  split
  · exact .failed _
  · rename_i n hn
    split
    · rename_i r hr
      rw [Path.value_set_of_error hp hr]
      exact .failed _
    · exact .changed (.set .refl List.mem_cons_self _) _

theorem without_touched {places : List Path} {p : Path} {mid : Value}
    (h : Touched places doc mid) (hp : p ∈ places) : Touched places doc (without p mid) := by
  unfold without
  split
  · rename_i gone rest herase
    exact h.erase hp herase
  · exact h

/-- A rename in place changes one object, which both paths lead to. -/
theorem renameInPlace?_eq_some {source target : Path} {renamed : Value}
    (hs : .current ∉ source.steps) (ht : .current ∉ target.steps)
    (h : renameInPlace? source target doc = some renamed) :
    ∃ parent old new fields, source.steps = parent ++ [.key old] ∧
      target.steps = parent ++ [.key new] ∧ Steps.get? doc parent = some (.object fields) ∧
      renamed = Steps.replace doc parent (.object (Fields.rename fields old new)) := by
  unfold renameInPlace? at h
  split at h
  · rename_i parent old parent' new hsource htarget
    split at h
    · rename_i hparent
      subst hparent
      split at h
      · rename_i fields hget
        exact ⟨parent.steps, old, new, fields, Path.steps_of_splitKey? hs hsource,
          Path.steps_of_splitKey? ht htarget, hget, (Option.some.inj h).symm⟩
      · cases h
    · cases h
  · cases h

theorem moveValue_whole {source target : Path} (hs : .current ∉ source.steps)
    (ht : .current ∉ target.steps) (v doc : Value) :
    Whole doc (· = doc) (Touched [source, target] doc) (moveValue source target v doc) := by
  simp only [moveValue]
  split
  · rename_i renamed hrenamed
    obtain ⟨parent, old, new, fields, hsource, htarget, hparent, rfl⟩ :=
      renameInPlace?_eq_some hs ht hrenamed
    exact .changed (.rename .refl (by simp) (by simp) hsource htarget hparent) _
  · split
    · rename_i r hr
      rw [Path.value_set_of_error ht hr]
      exact .failed _
    · exact .changed (without_touched (.set .refl (by simp) _) (by simp)) _

/-- What a rename does: it moves a value to a free place, takes over an equal one, or leaves the
document as it is. -/
inductive Renames (source target : Path) (doc : Value) : Effect Value → Prop
  | missing (hmissing : source.get? doc = none) (line : String) :
      Renames source target doc (.warned doc line)
  | same (hsame : source.steps = target.steps) : Renames source target doc (.unchanged doc)
  | intoSelf : Renames source target doc (.failed doc (.renameIntoSelf source target))
  | moved {v : Value} (hv : source.get? doc = some v) (hne : source.steps ≠ target.steps)
      (hfree : target.get? doc = none) :
      Renames source target doc (moveValue source target v doc)
  | takenOver {v existing : Value} (hv : source.get? doc = some v)
      (hexisting : target.get? doc = some existing) (hequal : existing.equal v = true) :
      Renames source target doc
        (.changed (without source doc) s!"Renamed {source.text} → {target.text}")
  | taken : Renames source target doc (.failed doc (.renameTargetExists source target))

theorem renames (source target : Path) (doc : Value) :
    Renames source target doc (rename source target doc) := by
  unfold rename
  split
  · rename_i hmissing
    exact .missing hmissing _
  · rename_i v hv
    split
    · rename_i hsame
      exact .same hsame
    · rename_i hne
      split
      · exact .intoSelf
      · split
        · rename_i hfree
          exact .moved hv hne hfree
        · rename_i existing hexisting
          split
          · rename_i hequal
            exact .takenOver hv hexisting hequal
          · exact .taken

theorem rename_whole {source target : Path} (hs : .current ∉ source.steps)
    (ht : .current ∉ target.steps) (doc : Value) :
    Whole doc (· = doc) (Touched [source, target] doc) (rename source target doc) := by
  have h := renames source target doc
  generalize rename source target doc = effect at h ⊢
  cases h with
  | missing => exact .warned _
  | same => exact .unchanged rfl
  | intoSelf => exact .failed _
  | moved => exact moveValue_whole hs ht _ doc
  | takenOver => exact .changed (without_touched .refl (by simp)) _
  | taken => exact .failed _

/-! ### Collections -/

theorem get?_of_getD {p : Path} {v : Value} (h : (p.get? doc).getD .null = v)
    (hv : v ≠ .null) : p.get? doc = some v := by
  rcases hget : p.get? doc with - | w
  · rw [hget] at h
    exact absurd h.symm hv
  · rw [hget] at h
    exact congrArg some h

/-- What a merge does: it merges an object into the one at its target, or adds it where there is
nothing, or fails. -/
inductive Merges (clock : Clock) (target : Path) (l : Literal) (isDeep : Bool) (doc : Value) :
    Effect Value → Prop
  | unchanged {source existing : Fields Value} (hsource : l.resolve clock = .object source)
      (hget : target.get? doc = some (.object existing))
      (hequal : (Value.object (Merge.ofDepth isDeep existing source)).equal (.object existing) =
        true) :
      Merges clock target l isDeep doc
        (.unchanged (target.replace doc (.object (Merge.ofDepth isDeep existing source))))
  | changed {source existing : Fields Value} (hsource : l.resolve clock = .object source)
      (hget : target.get? doc = some (.object existing))
      (hequal : (Value.object (Merge.ofDepth isDeep existing source)).equal (.object existing) =
        false) (line : String) :
      Merges clock target l isDeep doc
        (.changed (target.replace doc (.object (Merge.ofDepth isDeep existing source))) line)
  | added {source : Fields Value} {old : Option Value} (hsource : l.resolve clock = .object source)
      (hnull : (target.get? doc).getD .null = .null)
      (hwritten : (target.set doc (l.resolve clock)).answer = .ok old) (line : String) :
      Merges clock target l isDeep doc (.changed (target.set doc (l.resolve clock)).value line)
  | refused {r : Refusal} (hrefused : (target.set doc (l.resolve clock)).answer = .error r) :
      Merges clock target l isDeep doc
        (.failed (target.set doc (l.resolve clock)).value (.refusedWrite target r))
  | notAnObject (verb : Keyword) (found : Kind) :
      Merges clock target l isDeep doc (.failed doc (.notAnObject verb target found))
  | valueNotAnObject (verb : Keyword) (found : Kind) :
      Merges clock target l isDeep doc (.failed doc (.valueNotAnObject verb found))

theorem merges (clock : Clock) (target : Path) (l : Literal) (isDeep : Bool) (doc : Value) :
    Merges clock target l isDeep doc (merge clock target l isDeep doc) := by
  simp only [merge]
  cases hsource : l.resolve clock with
  | object source =>
    dsimp only
    cases hfound : (target.get? doc).getD .null with
    | object existing =>
      have hget := get?_of_getD hfound Value.noConfusion
      show Merges clock target l isDeep doc (if (Value.object (Merge.ofDepth isDeep existing
        source)).equal (.object existing) = true then _ else _)
      split
      · rename_i hequal
        exact .unchanged hsource hget hequal
      · rename_i hne
        exact .changed hsource hget (Bool.eq_false_iff.2 hne) _
    | null =>
      dsimp only
      rw [← hsource]
      split
      · rename_i r hrefused
        exact .refused hrefused
      · rename_i old hwritten
        exact .added hsource hfound hwritten _
    | _ => exact .notAnObject _ _
  | _ => exact .valueNotAnObject _ _

theorem merge_whole (clock : Clock) {target : Path} (ht : .current ∉ target.steps) (l : Literal)
    (deep : Bool) (doc : Value) :
    Whole doc (EqualAt target doc) (Touched [target] doc) (merge clock target l deep doc) := by
  have h := merges clock target l deep doc
  generalize merge clock target l deep doc = effect at h ⊢
  cases h with
  | unchanged hsource hget hequal =>
    -- the merged object is put back even where it equals the old one
    exact .unchanged (.part hget hequal)
  | changed => exact .changed (.replace .refl List.mem_cons_self _) _
  | added => exact .changed (.set .refl List.mem_cons_self _) _
  | refused hrefused =>
    rw [Path.value_set_of_error ht hrefused]
    exact .failed _
  | notAnObject => exact .failed _
  | valueNotAnObject => exact .failed _

/-- Edits of an array that is there. -/
theorem onArray_whole (clock : Clock) {target : Path} (filter : Option Condition) {verb : Verb}
    (hverb : verb.isUpdate = false) {items : List Value}
    (h : target.get? doc = some (.array items)) :
    Whole doc (EqualAt target doc) (Touched [target] doc)
      (onArray clock target filter verb items doc) := by
  have hself : target.replace doc (.array items) = doc := Steps.replace_eq_self h
  have hlift : Whole (target.replace doc (.array items)) (EqualAt target doc)
      (Touched [target] doc) (onArray clock target filter verb items doc) := by
    refine (editElements_whole clock target filter hverb items).lift
      (f := fun after => target.replace doc (.array after)) ?_ ?_
    · rintro after (rfl | heq)
      · rw [hself]
        exact .refl
      · exact .part h heq
    · intro after _
      exact .replace .refl List.mem_cons_self _
  rwa [hself] at hlift

/-- An inserting verb succeeds on every array. -/
theorem editElements_of_isInserting (clock : Clock) (target : Path) (filter : Option Condition)
    {verb : Verb} (h : verb.isInserting = true) (items : List Value) :
    ∃ after line, editElements clock target filter verb items = .changed after line := by
  cases verb with
  | append l => exact ⟨_, _, rfl⟩
  | prepend l => exact ⟨_, _, rfl⟩
  | insert l index => exact ⟨_, _, rfl⟩
  | _ => cases h

/-- What a verb on elements does: it edits the array at its target, or the one that it makes
where there is none, or it has no array to edit. -/
inductive EditsArray (clock : Clock) (target : Path) (filter : Option Condition) (verb : Verb)
    (doc : Value) : Effect Value → Prop
  | found {items : List Value} (hget : target.get? doc = some (.array items)) :
      EditsArray clock target filter verb doc (onArray clock target filter verb items doc)
  | made (hnull : (target.get? doc).getD .null = .null) (hinserting : verb.isInserting = true)
      (hmade : target.get? (target.set doc (.array [])).value = some (.array [])) :
      EditsArray clock target filter verb doc
        (onArray clock target filter verb [] (target.set doc (.array [])).value)
  | refused {r : Refusal} (hinserting : verb.isInserting = true)
      (hrefused : (target.set doc (.array [])).answer = .error r) :
      EditsArray clock target filter verb doc
        (.failed (target.set doc (.array [])).value (.refusedWrite target r))
  | missing (hnull : (target.get? doc).getD .null = .null) (hinserting : verb.isInserting = false)
      (line : String) : EditsArray clock target filter verb doc (.warned doc line)
  | other (kind : Kind) :
      EditsArray clock target filter verb doc
        (.failed doc (.notAnArray verb.keyword target (some kind)))

theorem editsArray (clock : Clock) (target : Path) (filter : Option Condition) (verb : Verb)
    (doc : Value) :
    EditsArray clock target filter verb doc (editArray clock target filter verb doc) := by
  simp only [editArray]
  cases hfound : (target.get? doc).getD .null with
  | array items => exact .found (get?_of_getD hfound Value.noConfusion)
  | null =>
    dsimp only
    cases hinserting : verb.isInserting with
    | true =>
      rw [if_pos rfl]
      cases hanswer : (target.set doc (.array [])).answer with
      | error r => exact .refused hinserting hanswer
      | ok old =>
        -- what is looked up after the write is the array that was written
        have hmade : target.get? (target.set doc (.array [])).value = some (.array []) :=
          Steps.get?_set_self hanswer
        rw [hmade]
        exact .made hfound hinserting hmade
    | false =>
      rw [if_neg Bool.false_ne_true]
      split <;> exact .missing hfound hinserting _
  | _ => exact .other _

/-- The array that an inserting verb makes is found again, and edited without a failure. -/
theorem editArray_whole (clock : Clock) {target : Path} (ht : .current ∉ target.steps)
    (filter : Option Condition) {verb : Verb} (hverb : verb.isUpdate = false) (doc : Value) :
    Whole doc (EqualAt target doc) (Touched [target] doc)
      (editArray clock target filter verb doc) := by
  have h := editsArray clock target filter verb doc
  generalize editArray clock target filter verb doc = effect at h ⊢
  cases h with
  | found hget => exact onArray_whole clock filter hverb hget
  | made hnull hinserting hmade =>
    obtain ⟨after, line, hedit⟩ := editElements_of_isInserting clock target filter hinserting []
    simp only [onArray, hedit]
    exact .changed (.replace (.set .refl List.mem_cons_self _) List.mem_cons_self _) _
  | refused hinserting hrefused =>
    rw [Path.value_set_of_error ht hrefused]
    exact .failed _
  | missing => exact .warned _
  | other => exact .failed _

theorem collection_whole (clock : Clock) {target : Path} (ht : .current ∉ target.steps)
    (filter : Option Condition) {verb : Verb} (hverb : verb.isUpdate = false) (doc : Value) :
    Whole doc (EqualAt target doc) (Touched [target] doc)
      (collection clock target filter verb doc) := by
  unfold collection
  split
  · exact .failed _
  · split
    · exact merge_whole clock ht _ _ doc
    · exact editArray_whole clock ht filter hverb doc

theorem editArray_of_get? {clock : Clock} {target : Path} {filter : Option Condition} {verb : Verb}
    {items : List Value} (h : target.get? doc = some (.array items)) :
    editArray clock target filter verb doc = onArray clock target filter verb items doc := by
  simp only [editArray, h]
  rfl

/-- A verb that makes no array has nothing to do where there is none. -/
theorem editArray_idle (clock : Clock) {target : Path} (filter : Option Condition) {verb : Verb}
    (hverb : verb.isInserting = false)
    (h : ∀ items, target.get? doc ≠ some (.array items)) :
    (editArray clock target filter verb doc).after = doc ∧
      (editArray clock target filter verb doc).changes = [] := by
  have hedits := editsArray clock target filter verb doc
  generalize editArray clock target filter verb doc = effect at hedits ⊢
  cases hedits with
  | found hget => exact absurd hget (h _)
  | made hnull hinserting => exact absurd hinserting (Bool.eq_false_iff.1 hverb)
  | refused hinserting => exact absurd hinserting (Bool.eq_false_iff.1 hverb)
  | missing => exact ⟨rfl, rfl⟩
  | other => exact ⟨rfl, rfl⟩

/-- Every verb but a merge edits the array at the target, if it takes the filter it has. -/
theorem collection_eq_editArray {clock : Clock} {target : Path} {filter : Option Condition}
    {verb : Verb} (hfilter : (filter.isSome && !verb.takesFilter) = false)
    (hverb : ∀ l isDeep, verb ≠ .merge l isDeep) :
    collection clock target filter verb doc = editArray clock target filter verb doc := by
  unfold collection
  rw [hfilter, if_neg Bool.false_ne_true]
  split
  · exact absurd rfl (hverb _ _)
  · rfl

/-- On an array a verb does what it does to the elements. -/
theorem collection_of_get? {clock : Clock} {target : Path} {filter : Option Condition} {verb : Verb}
    {items : List Value} (hfilter : (filter.isSome && !verb.takesFilter) = false)
    (hverb : ∀ l isDeep, verb ≠ .merge l isDeep) (h : target.get? doc = some (.array items)) :
    collection clock target filter verb doc =
      (editElements clock target filter verb items).lift
        fun after => target.replace doc (.array after) :=
  (collection_eq_editArray hfilter hverb).trans (editArray_of_get? h)

/-- Writes to matching elements go through the elements of the array at the target. -/
theorem collection_update_eq (clock : Clock) {target : Path} (c : Condition)
    (assignments : List (Path × Literal)) {items : List Value}
    (h : target.get? doc = some (.array items)) :
    collection clock target (some c) (.update assignments) doc =
      (update target (c.holds clock)
        (assignments.map fun (p, l) => (p, l.resolve clock)) items).lift
        fun after => target.replace doc (.array after) := by
  rw [collection_of_get? rfl (fun _ _ => Verb.noConfusion) h]
  rfl

/-- Writes to matching elements leave the document alone or go through the elements of an array. -/
theorem collection_update_cases (clock : Clock) (target : Path) (filter : Option Condition)
    (assignments : List (Path × Literal)) (doc : Value) :
    Whole doc (fun _ => False) (fun _ => False)
        (collection clock target filter (.update assignments) doc) ∨
      ∃ c items, filter = some c ∧ target.get? doc = some (.array items) ∧
        collection clock target filter (.update assignments) doc =
          (update target (c.holds clock)
            (assignments.map fun (p, l) => (p, l.resolve clock)) items).lift
            fun after => target.replace doc (.array after) := by
  rw [collection_eq_editArray (Bool.and_false _) fun _ _ => Verb.noConfusion]
  have h := editsArray clock target filter (.update assignments) doc
  generalize editArray clock target filter (.update assignments) doc = effect at h ⊢
  cases h with
  | @found items hget =>
    rcases filter with - | c
    · left
      have hself : target.replace doc (.array items) = doc := Steps.replace_eq_self hget
      show Whole doc _ _ (.failed (target.replace doc (.array items)) _)
      rw [hself]
      exact .failed _
    · exact .inr ⟨c, items, rfl, hget, rfl⟩
  | made hnull hinserting => cases hinserting
  | refused hinserting => cases hinserting
  | missing => exact .inl (.warned _)
  | other => exact .inl (.failed _)

end Run

/-! ### Operations -/

namespace Operation

open Effect

/-- True of writes to the matching elements of a collection. -/
def isUpdate : Operation → Bool
  | collection _ _ verb => verb.isUpdate
  | _ => false

variable {op : Operation} {doc : Value}

theorem eq_of_isUpdate (h : op.isUpdate = true) :
    ∃ target filter assignments, op = .collection target filter (.update assignments) := by
  cases op with
  | collection target filter verb =>
    cases verb with
    | update assignments => exact ⟨target, filter, assignments, rfl⟩
    | _ => cases h
  | _ => cases h

variable [Decimals]

/-- What an operation on fields leaves without a line is the document it was given. -/
theorem apply_whole_of_isOnFields (h : op.WellFormed) (hop : op.isOnFields = true)
    (clock : Clock) (doc : Value) :
    Whole doc (· = doc) (Touched op.places doc) (op.apply clock doc) := by
  have hsteps : ∀ p ∈ op.places, .current ∉ p.steps := fun p hp => h.current_notMem hp
  cases op with
  | set p l => exact Run.set_whole clock (hsteps p (by simp [places])) l doc
  | delete p => exact Run.delete_whole p doc
  | rename source target =>
    exact Run.rename_whole (hsteps source (by simp [places])) (hsteps target (by simp [places]))
      doc
  | increment p amount => exact Run.step_whole _ _ (hsteps p (by simp [places])) _ doc
  | decrement p amount => exact Run.step_whole _ _ (hsteps p (by simp [places])) _ doc
  | collection target filter verb => cases hop

theorem apply_whole (h : op.WellFormed) (hop : op.isUpdate = false) (clock : Clock)
    (doc : Value) :
    Whole doc (Touched op.places doc) (Touched op.places doc) (op.apply clock doc) := by
  cases op with
  | collection target filter verb =>
    have ht : .current ∉ target.steps := h.current_notMem List.mem_cons_self
    exact (Run.collection_whole clock ht filter hop doc).mono (fun _ => EqualAt.touched)
      (fun _ => id)
  | _ =>
    refine (apply_whole_of_isOnFields h rfl clock doc).mono ?_ (fun _ => id)
    rintro after rfl
    exact .refl

/-- **An operation changes a document along its paths only**, whether it fails or not. -/
theorem apply_touched (h : op.WellFormed) (clock : Clock) (doc : Value) :
    Touched op.places doc (op.apply clock doc).after := by
  cases hop : op.isUpdate with
  | false => exact (apply_whole h hop clock doc).after .refl (fun _ => id) (fun _ => id)
  | true =>
    obtain ⟨target, filter, assignments, rfl⟩ := eq_of_isUpdate hop
    rcases Run.collection_update_cases clock target filter assignments doc with
      hwhole | ⟨c, items, -, -, heq⟩
    · exact hwhole.after .refl (fun _ => False.elim) (fun _ => False.elim)
    · rw [apply, heq]
      exact .replace .refl List.mem_cons_self _

/-- An operation that warns has left the document alone, writes to matching elements included. -/
theorem of_warnings_apply (h : op.WellFormed) {clock : Clock}
    (hw : (op.apply clock doc).warnings ≠ []) :
    (op.apply clock doc).failure = none ∧ (op.apply clock doc).after = doc ∧
      (op.apply clock doc).changes = [] := by
  cases hop : op.isUpdate with
  | false => exact (apply_whole h hop clock doc).of_warnings hw
  | true =>
    obtain ⟨target, filter, assignments, rfl⟩ := eq_of_isUpdate hop
    rcases Run.collection_update_cases clock target filter assignments doc with
      hwhole | ⟨c, items, -, hget, heq⟩
    · exact hwhole.of_warnings hw
    · rw [apply, heq] at hw ⊢
      obtain ⟨hfailure, hafter, hchanges⟩ := Run.of_warnings_update hw
      refine ⟨hfailure, ?_, hchanges⟩
      rw [Effect.lift, hafter]
      exact Steps.replace_eq_self hget

end Operation

end MetadataRules
