/-
MetadataRules/Proofs/Run/Stable.lean

What runs keep.

A property of values that edits keep (`Value.Stable`) is kept by every operation
that writes values with it, whether the operation succeeds or not
(`Operation.stable_apply`).  What an operation writes are the values of some of
its literals (`Operation.written`), or the number that it counts to.  There is
one lemma for each function that an operation is made of; those on elements
speak of every element that is left.
-/
import MetadataRules.Proofs.Block
import MetadataRules.Proofs.Rule.Numbers
import MetadataRules.Proofs.Run.Operation

namespace MetadataRules

/-- The literals that a verb may write. -/
def Verb.written : Verb → List Literal
  | append l | prepend l | insert l _ | merge l _ => [l]
  | update assignments => assignments.map Prod.snd
  | _ => []

/-- The literals that an operation may write. -/
def Operation.written : Operation → List Literal
  | set _ l => [l]
  | collection _ _ verb => verb.written
  | _ => []

theorem Verb.written_subset (verb : Verb) : verb.written ⊆ verb.literals := by
  cases verb with
  | removeAll l | removeFirst l => exact List.nil_subset _
  | _ => exact List.Subset.refl _

theorem Operation.written_subset (op : Operation) : op.written ⊆ op.literals := by
  cases op with
  | collection target filter verb => exact verb.written_subset
  | _ => exact List.Subset.refl _

/-- The number that an operation counts from and the amount that it adds. -/
def Operation.terms? (doc : Value) : Operation → Option (Number × Number)
  | increment p amount => (Run.counter (p.get? doc)).toOption.map (·, amount.getD .one)
  | decrement p amount => (Run.counter (p.get? doc)).toOption.map (·, -(amount.getD .one))
  | _ => none

namespace Run

variable {P : Value → Prop} (hP : Value.Stable P) {clock : Clock}
include hP

/-! ### Elements -/

section Elements

variable {items : List Value} (hitems : ∀ v ∈ items, P v)

theorem stable_assignAll {values : List (Path × Value)} (hvalues : ∀ a ∈ values, P a.2)
    {v : Value} (hv : P v) : P (assignAll v values).value := by
  induction values generalizing v with
  | nil => exact hv
  | cons a rest ih =>
    obtain ⟨p, new⟩ := a
    obtain ⟨hnew, hrest⟩ := List.forall_mem_cons.1 hvalues
    have hwritten := p.stable_set hP hv hnew
    simp only [assignAll]
    split
    · exact ih hrest hwritten
    · exact hwritten

include hitems

theorem stable_updateFrom {target : Path} {test : Value → Bool} {values : List (Path × Value)}
    (hvalues : ∀ a ∈ values, P a.2) (index : Nat) :
    ∀ v ∈ (updateFrom target test values index items).after, P v := by
  induction items generalizing index with
  | nil => exact nofun
  | cons item rest ih =>
    obtain ⟨hitem, hrest⟩ := List.forall_mem_cons.1 hitems
    rw [updateFrom]
    split
    · have hassigned := stable_assignAll hP hvalues hitem
      dsimp only
      split
      · exact List.forall_mem_cons.2 ⟨hassigned, hrest⟩
      · exact List.forall_mem_cons.2 ⟨hassigned, ih hrest (index + 1)⟩
    · exact List.forall_mem_cons.2 ⟨hitem, ih hrest (index + 1)⟩

/-- What a verb leaves are elements that were there, written to or not, and values of its
literals. -/
theorem stable_editElements (target : Path) (filter : Option Condition) {verb : Verb}
    (hverb : ∀ l ∈ verb.written, P (l.resolve clock)) :
    ∀ v ∈ (editElements clock target filter verb items).after, P v := by
  have hfilter : ∀ {effect : Condition → Effect (List Value)},
      (∀ c, ∀ v ∈ (effect c).after, P v) →
        ∀ v ∈ (withFilter verb target filter items effect).after, P v := by
    intro effect h
    rcases filter with - | c
    · exact hitems
    · exact h c
  cases verb with
  | append l =>
    have hl := hverb l List.mem_cons_self
    exact List.forall_mem_append.2 ⟨hitems, List.forall_mem_singleton.2 hl⟩
  | prepend l =>
    have hl := hverb l List.mem_cons_self
    exact List.forall_mem_cons.2 ⟨hl, hitems⟩
  | insert l index =>
    have hl := hverb l List.mem_cons_self
    intro v hv
    rcases List.eq_or_mem_of_mem_insertIdx hv with rfl | hv
    · exact hl
    · exact hitems v hv
  | removeAll l =>
    simp only [editElements]
    split
    · exact hitems
    · exact fun v hv => hitems v (List.mem_filter.1 hv).1
  | removeFirst l =>
    simp only [editElements]
    split
    · exact fun v hv => hitems v (List.mem_of_mem_eraseP hv)
    · exact hitems
  | removeMatching =>
    refine hfilter fun c => ?_
    dsimp only
    split
    · exact hitems
    · exact fun v hv => hitems v (List.mem_filter.1 hv).1
  | sort by_ direction =>
    have hsorted : ∀ v ∈ Elements.sort items by_ direction, P v :=
      fun v hv => hitems v (Elements.sort_perm.mem_iff.1 hv)
    simp only [editElements, sort]
    split
    · exact hsorted
    · split <;> exact hsorted
  | moveIndex source destination =>
    simp only [editElements, moveIndex]
    split
    · exact hitems
    · rename_i m hm
      have hmem : ∀ v ∈ m.items, P v :=
        fun v hv => hitems v ((Elements.moveIndex_perm hm).mem_iff.1 hv)
      split <;> exact hmem
  | moveMatching d =>
    refine hfilter fun c => ?_
    simp only [moveMatching]
    split
    · rename_i moved n hmoved
      have hmem : ∀ v ∈ moved, P v :=
        fun v hv => hitems v ((Elements.moveWhere_perm hmoved).mem_iff.1 hv)
      split <;> exact hmem
    · exact hitems
    · exact hitems
  | deduplicate =>
    have hkept : ∀ v ∈ Elements.deduplicate items, P v :=
      fun v hv => hitems v (Elements.dedupAfter_sublist.mem hv)
    simp only [editElements]
    split <;> exact hkept
  | merge l deep => exact hitems
  | update assignments =>
    refine hfilter fun c => ?_
    unfold update
    split
    · refine stable_updateFrom hP hitems ?_ 0
      rw [List.forall_mem_map]
      exact fun a ha => hverb a.2 (List.mem_map_of_mem ha)
    · exact hitems

end Elements

/-! ### Fields -/

variable {doc : Value} (hdoc : P doc)
include hdoc

theorem stable_set (p : Path) {l : Literal} (hl : P (l.resolve clock)) :
    P (set clock p l doc).after := by
  have hwritten := p.stable_set hP hdoc hl
  simp only [set]
  split
  · exact hdoc
  · split <;> exact hwritten

theorem stable_delete (p : Path) : P (delete p doc).after := by
  unfold delete
  split
  · rename_i herase
    exact hP.erase? hdoc herase
  · exact hdoc

theorem stable_without (p : Path) : P (without p doc) := by
  unfold without
  split
  · rename_i herase
    exact hP.erase? hdoc herase
  · exact hdoc

theorem stable_moveValue {source target : Path} (hs : .current ∉ source.steps)
    (ht : .current ∉ target.steps) (hmissing : target.get? doc = none) {v : Value} (hv : P v) :
    P (moveValue source target v doc).after := by
  have hwritten := target.stable_set hP hdoc hv
  simp only [moveValue]
  split
  · rename_i renamed hrenamed
    obtain ⟨parent, old, new, fields, -, htarget, hparent, rfl⟩ :=
      renameInPlace?_eq_some hs ht hrenamed
    -- nothing is at the target, so no other entry has the new name
    rw [Path.get?, htarget, Steps.get?_concat_key hparent] at hmissing
    exact hP.replace hdoc (hP.rename hmissing (hP.get? hdoc hparent))
  · split
    · exact hwritten
    · exact stable_without hP hwritten source

theorem stable_rename {source target : Path} (hs : .current ∉ source.steps)
    (ht : .current ∉ target.steps) : P (rename source target doc).after := by
  have h := renames source target doc
  generalize rename source target doc = effect at h ⊢
  cases h with
  | moved hv hne hfree => exact stable_moveValue hP hdoc hs ht hfree (hP.get? hdoc hv)
  | takenOver => exact stable_without hP hdoc source
  | _ => exact hdoc

theorem stable_step [Decimals] (verb : Keyword) (word : String) (p : Path) (amount : Number)
    (hnumber : ∀ n, counter (p.get? doc) = .ok n → P (.number (n.stepBy amount))) :
    P (step verb word p amount doc).after := by
  simp only [step]
  split
  · exact hdoc
  · rename_i n hn
    have hwritten := p.stable_set hP hdoc (hnumber n hn)
    split <;> exact hwritten

/-! ### Collections -/

theorem stable_merge (target : Path) {l : Literal} (isDeep : Bool) (hl : P (l.resolve clock)) :
    P (merge clock target l isDeep doc).after := by
  have hmerged : ∀ source existing, l.resolve clock = .object source →
      target.get? doc = some (.object existing) →
        P (target.replace doc (.object (Merge.ofDepth isDeep existing source))) :=
    fun _ _ hsource hget =>
      hP.replace hdoc (Merge.stable_ofDepth hP isDeep (hP.get? hdoc hget) (hsource ▸ hl))
  have h := merges clock target l isDeep doc
  generalize merge clock target l isDeep doc = effect at h ⊢
  cases h with
  | unchanged hsource hget => exact hmerged _ _ hsource hget
  | changed hsource hget => exact hmerged _ _ hsource hget
  | added => exact target.stable_set hP hdoc hl
  | refused => exact target.stable_set hP hdoc hl
  | notAnObject => exact hdoc
  | valueNotAnObject => exact hdoc

theorem stable_onArray (target : Path) (filter : Option Condition) {verb : Verb}
    (hverb : ∀ l ∈ verb.written, P (l.resolve clock)) {items : List Value}
    (hitems : P (.array items)) : P (onArray clock target filter verb items doc).after := by
  have hafter := stable_editElements hP (hP.array_iff.1 hitems) target filter hverb
  exact hP.replace hdoc (hP.array_iff.2 hafter)

theorem stable_editArray (target : Path) (filter : Option Condition) {verb : Verb}
    (hverb : ∀ l ∈ verb.written, P (l.resolve clock)) :
    P (editArray clock target filter verb doc).after := by
  have hempty : P (.array []) := hP.array_iff.2 (List.forall_mem_nil P)
  have h := editsArray clock target filter verb doc
  generalize editArray clock target filter verb doc = effect at h ⊢
  cases h with
  | found hget => exact stable_onArray hP hdoc target filter hverb (hP.get? hdoc hget)
  | made => exact stable_onArray hP (target.stable_set hP hdoc hempty) target filter hverb hempty
  | refused => exact target.stable_set hP hdoc hempty
  | missing => exact hdoc
  | other => exact hdoc

theorem stable_collection (target : Path) (filter : Option Condition) {verb : Verb}
    (hverb : ∀ l ∈ verb.written, P (l.resolve clock)) :
    P (collection clock target filter verb doc).after := by
  unfold collection
  split
  · exact hdoc
  · split
    · exact stable_merge hP hdoc target _ (hverb _ List.mem_cons_self)
    · exact stable_editArray hP hdoc target filter hverb

end Run

/-- **A property that edits keep is kept by operations**, if the values that they write have it
and the number that they count to. -/
theorem Operation.stable_apply [Decimals] {P : Value → Prop} (hP : Value.Stable P)
    {op : Operation} (h : op.WellFormed) {clock : Clock}
    (hwritten : ∀ l ∈ op.written, P (l.resolve clock)) {doc : Value}
    (hnumber : ∀ n amount, op.terms? doc = some (n, amount) → P (.number (n.stepBy amount)))
    (hdoc : P doc) : P (op.apply clock doc).after := by
  cases op with
  | set p l => exact Run.stable_set hP hdoc p (hwritten l List.mem_cons_self)
  | delete p => exact Run.stable_delete hP hdoc p
  | rename source target =>
    have hs := h.current_notMem List.mem_cons_self
    have ht := h.current_notMem (List.mem_cons_of_mem _ List.mem_cons_self)
    exact Run.stable_rename hP hdoc hs ht
  | increment p amount =>
    refine Run.stable_step hP hdoc _ _ p _ fun n hn => hnumber n _ ?_
    rw [terms?, hn]
    rfl
  | decrement p amount =>
    refine Run.stable_step hP hdoc _ _ p _ fun n hn => hnumber n _ ?_
    rw [terms?, hn]
    rfl
  | collection target filter verb => exact Run.stable_collection hP hdoc target filter hwritten

end MetadataRules
