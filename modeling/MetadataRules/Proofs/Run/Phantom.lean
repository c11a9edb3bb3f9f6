/-
MetadataRules/Proofs/Run/Phantom.lean

Runs that report a change where there is none.

A line is written by different tests: a write and a merge compare values, a sort
compares arrays, a removal counts elements, a move by index compares positions,
and counting compares nothing.  The first four imply that the document differs
afterwards.  The last two do not: a number may be counted up to an equal one,
and an element moved to another position past equal ones (`Run.Phantom`).  With
these two exceptions a run of one operation that reports a change has made one
(`Action.changes_imp_modified_iff`).

A document differs when something different is found at a path
(`Path.get?_of_equal`), when a part was replaced by a different one, or when
something was removed from it.
-/
import MetadataRules.Number.Fixed
import MetadataRules.Proofs.Alike.Path
import MetadataRules.Proofs.Run.Rename
import MetadataRules.Proofs.Run.Repeat

namespace MetadataRules

/-! ### Documents that are equal -/

/-- In equal documents the same steps lead to equal values. -/
theorem Steps.get?_of_equal {doc after : Value} (hdoc : doc.IsPlain)
    (hafter : after.hasUniqueKeys = true) (h : after.equal doc = true) (steps : List Segment) :
    (get? doc steps = none ∧ get? after steps = none) ∨
      ∃ old new, get? doc steps = some old ∧ get? after steps = some new ∧
        old.equal new = true := by
  have halike := get?_alike (Value.alike_of_equal hafter hdoc.2 h) steps
  rcases optionRel_iff.1 halike with ⟨hnew, hold⟩ | ⟨new, old, hnew, hold, hparts⟩
  · exact .inl ⟨hold, hnew⟩
  · have hplain := Value.stable_isPlain.get? hdoc hold
    refine .inr ⟨old, new, hold, hnew, ?_⟩
    rw [Value.equal_congr (Value.Alike.refl Number.Tied.refl hplain.2) hparts]
    exact hplain.equal_refl

/-- What is found where something was found before equals it. -/
theorem Steps.equal_of_get? {doc after old new : Value} {steps : List Segment}
    (hdoc : doc.IsPlain) (hafter : after.hasUniqueKeys = true) (h : after.equal doc = true)
    (hold : get? doc steps = some old) (hnew : get? after steps = some new) :
    old.equal new = true := by
  rcases get?_of_equal hdoc hafter h steps with ⟨hnone, -⟩ | ⟨old', new', hold', hnew', hequal⟩
  · rw [hold] at hnone
    cases hnone
  · obtain rfl := Option.some.inj (hold.symm.trans hold')
    obtain rfl := Option.some.inj (hnew.symm.trans hnew')
    exact hequal

/-- A document differs from one in which a path leads somewhere where it led nowhere, or the
other way round. -/
theorem Steps.not_equal_of_isSome {doc after : Value} (hdoc : doc.IsPlain)
    (hafter : after.hasUniqueKeys = true) (steps : List Segment)
    (hne : (get? doc steps).isSome = !(get? after steps).isSome) : after.equal doc = false := by
  rw [Bool.eq_false_iff]
  intro h
  rcases get?_of_equal hdoc hafter h steps with ⟨hold, hnew⟩ | ⟨old, new, hold, hnew, -⟩ <;>
    · rw [hold, hnew] at hne
      cases hne

namespace Effect

variable {α : Type} {e : Effect α} {differs : α → Prop}

/-- A line tells of a difference: what is left with one differs from what was given. -/
def IsGenuine (e : Effect α) (differs : α → Prop) : Prop := e.changes ≠ [] → differs e.after

theorem IsGenuine.silent (h : e.changes = []) : e.IsGenuine differs := fun hne => absurd h hne

end Effect

/-- An operation that tells of a change and makes none: it counts a number up or down to an
equal one, or moves an element to another position past equal ones. -/
inductive Operation.Phantom [Decimals] (doc : Value) : Operation → Prop
  | increment {p : Path} {amount : Option Number} {n : Number}
      (hget : p.get? doc = some (.number n))
      (hequal : (n.stepBy (amount.getD .one)).equal n = true) :
      Phantom doc (.increment p amount)
  | decrement {p : Path} {amount : Option Number} {n : Number}
      (hget : p.get? doc = some (.number n))
      (hequal : (n.stepBy (-(amount.getD .one))).equal n = true) :
      Phantom doc (.decrement p amount)
  | move {target : Path} {source destination : Int} {items : List Value} {m : Elements.Moved}
      (hget : target.get? doc = some (.array items))
      (hmoved : Elements.moveIndex items source destination = .ok m)
      (hne : m.source ≠ m.target) (hequal : Value.equalItems m.items items = true) :
      Phantom doc (.collection target none (.moveIndex source destination))

namespace Run

open Effect

variable {clock : Clock} {doc : Value}

/-! ### Fields -/

theorem set_genuine {p : Path} (hp : .current ∉ p.steps) {l : Literal}
    (hl : (l.resolve clock).IsPlain) (hdoc : doc.IsPlain) :
    (set clock p l doc).IsGenuine fun after => after.equal doc = false := by
  intro hchanges
  have hget := (set_told hp l doc).told_of_changes hchanges
  have hplain := stable_set Value.stable_isPlain hdoc p hl
  rcases hold : p.get? doc with - | old
  · refine Steps.not_equal_of_isSome hdoc hplain.2 p.steps ?_
    show (p.get? doc).isSome = !(p.get? _).isSome
    rw [hold, hget]
    rfl
  · rw [Bool.eq_false_iff]
    intro heq
    -- an equal value is not written
    have hequal : old.equal (l.resolve clock) = true :=
      Steps.equal_of_get? hdoc hplain.2 heq hold hget
    have hsilent : set clock p l doc = .unchanged doc := by
      simp only [set, hold, Option.any_some, hequal, if_true]
    rw [hsilent] at hchanges
    exact hchanges rfl

theorem delete_genuine {p : Path} (hp : .current ∉ p.steps) (hdoc : doc.IsPlain) :
    (delete p doc).IsGenuine fun after => after.equal doc = false := by
  unfold delete
  split
  · rename_i old rest herase
    exact fun _ => Steps.not_equal_erase? hp hdoc.1 hdoc.2 herase
  · exact .silent rfl

theorem exists_without {source : Path} {v : Value} (hs : .current ∉ source.steps)
    (hne : source.steps ≠ []) (hv : source.get? doc = some v) :
    ∃ rest, source.erase? doc = some (v, rest) ∧ without source doc = rest := by
  obtain ⟨rest, herase⟩ := Steps.exists_erase? hne hs hv
  exact ⟨rest, herase, by rw [without, Path.erase?, herase]⟩

/-- A value that was written where nothing was and removed from its old place leaves a
document that differs: its key is gone, or the array it was taken from is shorter. -/
theorem not_equal_without_set {source target : Path} {v : Value} (hs : .current ∉ source.steps)
    (hne : source.steps ≠ []) (ht : .current ∉ target.steps) (hdoc : doc.IsPlain)
    (hv : source.get? doc = some v) (hmissing : target.get? doc = none) :
    (without source (target.set doc v).value).equal doc = false := by
  have hwritten := target.stable_set Value.stable_isPlain hdoc (Value.stable_isPlain.get? hdoc hv)
  obtain ⟨⟨w, hw⟩, -, -⟩ := Steps.get?_set_of_missing v hs ht hv hmissing
  have hstill : source.get? (target.set doc v).value = some w := hw
  obtain ⟨after, herase, hwithout⟩ := exists_without hs hne hstill
  have hafter := Value.stable_isPlain.erase? hwritten herase
  obtain ⟨place, s, hsource⟩ := (List.eq_nil_or_concat' source.steps).resolve_left hne
  have hplace : .current ∉ place := fun h => hs (hsource ▸ List.mem_append_left _ h)
  rw [hwithout]
  rw [Path.erase?, hsource] at herase
  obtain ⟨parent, rest, hparent, hdrop, hrest⟩ := Steps.exists_dropChild?_of_erase? herase
  cases parent with
  | object fields =>
    refine Steps.not_equal_of_isSome hdoc hafter.2 source.steps ?_
    have hgone : Steps.get? after source.steps = none := by
      have hkeys := Value.stable_hasUniqueKeys.get? hwritten.2 hparent
      rw [hsource, Steps.get?_append, hrest, Option.bind_some, Steps.get?_cons,
        Value.child?_of_dropChild?_object hkeys hdrop rfl]
      rfl
    show (source.get? doc).isSome = _
    rw [hgone, hv]
    rfl
  | array items =>
    rw [Path.get?, hsource, Steps.get?_append] at hv
    obtain ⟨before, hbefore, -⟩ := Option.bind_eq_some_iff.1 hv
    obtain ⟨items', rfl, hlength⟩ :=
      Steps.exists_array_of_get?_set v hplace ht hbefore hmissing hparent
    cases s with
    | index i =>
      simp only [Value.dropChild?, Option.bind_eq_some_iff, Option.map_eq_some_iff,
        Prod.mk.injEq] at hdrop
      obtain ⟨pos, hpos, old, -, -, rfl⟩ := hdrop
      have hshorter := List.length_eraseIdx_of_lt (lt_of_position? hpos)
      rw [Bool.eq_false_iff]
      intro heq
      have hequal := Steps.equal_of_get? hdoc hafter.2 heq hbefore hrest
      have hsame := (Value.equal_array_iff.1 hequal).length_eq
      have hlt := lt_of_position? hpos
      omega
    | _ => cases hdrop
  | _ => cases hdrop

theorem moveValue_genuine {source target : Path} {v : Value} (hs : .current ∉ source.steps)
    (hne : source.steps ≠ []) (ht : .current ∉ target.steps) (hdoc : doc.IsPlain)
    (hv : source.get? doc = some v) (hmissing : target.get? doc = none) :
    (moveValue source target v doc).IsGenuine fun after => after.equal doc = false := by
  have hplain := stable_moveValue Value.stable_isPlain hdoc hs ht hmissing
    (Value.stable_isPlain.get? hdoc hv)
  simp only [moveValue] at hplain ⊢
  split
  · rename_i renamed hrenamed
    intro _
    rw [hrenamed] at hplain
    -- in place: the value is found under a name that there was not
    obtain ⟨hget, -⟩ := get?_renameInPlace? hs ht hv hmissing hrenamed
    refine Steps.not_equal_of_isSome hdoc hplain.2 target.steps ?_
    show (target.get? doc).isSome = !(target.get? renamed).isSome
    rw [hmissing, hget]
    rfl
  · split
    · exact .silent rfl
    · exact fun _ => not_equal_without_set hs hne ht hdoc hv hmissing

theorem rename_genuine {source target : Path} (hs : .current ∉ source.steps)
    (hne : source.steps ≠ []) (ht : .current ∉ target.steps) (hdoc : doc.IsPlain) :
    (rename source target doc).IsGenuine fun after => after.equal doc = false := by
  have h := renames source target doc
  generalize rename source target doc = effect at h ⊢
  cases h with
  | moved hv _ hfree => exact moveValue_genuine hs hne ht hdoc hv hfree
  | takenOver hv =>
    obtain ⟨rest, herase, hwithout⟩ := exists_without hs hne hv
    intro _
    rw [Effect.changed, hwithout]
    exact Steps.not_equal_erase? hs hdoc.1 hdoc.2 herase
  | _ => exact .silent rfl

/-- Counting tells of no change exactly when it leaves an equal number. -/
theorem step_phantom_iff [Decimals] {p : Path} (hp : .current ∉ p.steps) (verb : Keyword)
    (word : String) (amount : Number) (hdoc : doc.IsPlain) :
    ((step verb word p amount doc).changes ≠ [] ∧
        (step verb word p amount doc).after.equal doc = true) ↔
      ∃ n, p.get? doc = some (.number n) ∧ (n.stepBy amount).equal n = true := by
  simp only [step]
  constructor
  · rintro ⟨hchanges, hequal⟩
    rcases hn : counter (p.get? doc) with v | n
    · rw [hn] at hchanges
      exact absurd rfl hchanges
    · rw [hn] at hchanges hequal
      dsimp only at hchanges hequal
      have hwritten : (p.set doc (.number (n.stepBy amount))).value.hasUniqueKeys = true :=
        p.stable_set Value.stable_hasUniqueKeys hdoc.2 rfl
      rcases hanswer : (p.set doc (.number (n.stepBy amount))).answer with r | x
      · rw [hanswer] at hchanges
        exact absurd rfl hchanges
      · rw [hanswer] at hequal
        have hnew : p.get? (p.set doc (.number (n.stepBy amount))).value =
            some (.number (n.stepBy amount)) := Steps.get?_set_self hanswer
        rcases Steps.get?_of_equal hdoc hwritten hequal p.steps with
          ⟨-, hnone⟩ | ⟨old, new, hold, hfound, hsame⟩
        · cases hnew.symm.trans hnone
        · obtain rfl := Option.some.inj (hnew.symm.trans hfound)
          rw [Path.get?, hold] at hn
          -- only a number equals a number
          cases old with
          | number n' =>
            obtain rfl : n' = n := Except.ok.inj hn
            exact ⟨n', hold, Value.equal_symm rfl rfl hsame⟩
          | _ => cases hsame
  · rintro ⟨n, hget, hequal⟩
    have hset : p.set doc (.number (n.stepBy amount)) =
        ⟨p.replace doc (.number (n.stepBy amount)), .ok (some (.number n))⟩ :=
      Steps.set_of_get? hp hget
    simp only [hget, counter, Value.asNumber?, hset, Effect.changed]
    refine ⟨List.cons_ne_nil _ _, ?_⟩
    rw [Path.replace, Steps.equal_replace hp hdoc.1 hdoc.2 hget]
    exact hequal

/-! ### Elements -/

variable {target : Path} {filter : Option Condition} {verb : Verb} {items : List Value}

theorem updateFrom_genuine {test : Value → Bool} (values : List (Path × Value)) (index : Nat) :
    (updateFrom target test values index items).IsGenuine
      fun after => Value.equalItems after items = false := by
  induction items generalizing index with
  | nil => exact .silent rfl
  | cons item rest ih =>
    intro hchanges
    rw [updateFrom] at hchanges ⊢
    split
    · rename_i htest
      rw [if_pos htest] at hchanges
      dsimp only at hchanges ⊢
      split
      · rename_i p r hrefused
        rw [hrefused] at hchanges
        exact absurd rfl hchanges
      · rename_i hrefused
        rw [hrefused] at hchanges
        dsimp only at hchanges
        rw [Value.equalItems]
        cases hequal : (assignAll item values).value.equal item with
        | false => rfl
        | true =>
          -- this element has no line, so there is one behind it
          rw [hequal, if_pos rfl, List.nil_append] at hchanges
          exact ih (index + 1) hchanges
    · rename_i htest
      rw [if_neg htest] at hchanges
      simp only [Effect.lift, Value.equalItems]
      rw [ih (index + 1) hchanges, Bool.and_false]

theorem withFilter_genuine {differs : List Value → Prop} {effect : Condition → Effect (List Value)}
    (h : ∀ c, (effect c).IsGenuine differs) :
    (withFilter verb target filter items effect).IsGenuine differs := by
  rcases filter with - | c
  · exact .silent rfl
  · exact h c

/-- The lines of all verbs on elements but a move by index tell of arrays that differ. -/
theorem editElements_genuine (hverb : ∀ i j, verb ≠ .moveIndex i j) :
    (editElements clock target filter verb items).IsGenuine
      fun after => Value.equalItems after items = false := by
  have hlength : ∀ {after : List Value} (line : String), after.length ≠ items.length →
      (Effect.changed after line).IsGenuine fun after => Value.equalItems after items = false :=
    fun _ hne _ => Value.not_equal_of_length hne
  cases verb with
  | append l => exact hlength _ (by simp)
  | prepend l => exact hlength _ (by simp)
  | insert l index =>
    refine hlength _ ?_
    rw [(Elements.insertAt_perm _ _).length_eq]
    simp
  | removeAll l =>
    simp only [editElements]
    split
    · exact .silent rfl
    · rename_i hremoved
      exact hlength _ (by omega)
  | removeFirst l =>
    simp only [editElements]
    split
    · rename_i hany
      obtain ⟨item, hitem, hequal⟩ := List.any_eq_true.1 hany
      refine hlength _ ?_
      rw [Elements.removeFirst, List.length_eraseP_of_mem hitem hequal]
      have hpos := List.length_pos_of_mem hitem
      omega
    · exact .silent rfl
  | removeMatching =>
    refine withFilter_genuine fun c => ?_
    dsimp only
    split
    · exact .silent rfl
    · rename_i hremoved
      exact hlength _ (by omega)
  | sort by_ direction =>
    simp only [editElements, sort]
    split
    · exact .silent rfl
    · rename_i hsorted
      split <;> exact fun _ => Bool.eq_false_iff.2 hsorted
  | moveIndex i j => exact absurd rfl (hverb i j)
  | moveMatching d =>
    refine withFilter_genuine fun c => ?_
    simp only [moveMatching]
    split
    · split
      · exact .silent rfl
      · rename_i hmoved
        exact fun _ => Bool.eq_false_iff.2 hmoved
    · exact .silent rfl
    · exact .silent rfl
  | deduplicate =>
    simp only [editElements]
    split
    · exact .silent rfl
    · rename_i hremoved
      exact hlength _ (by omega)
  | merge l isDeep => exact .silent rfl
  | update assignments =>
    refine withFilter_genuine fun c => ?_
    unfold update
    split
    · exact updateFrom_genuine _ 0
    · exact .silent rfl

/-- A move by index tells of no change exactly when it goes past equal elements. -/
theorem moveIndex_phantom_iff {source destination : Int} :
    ((moveIndex target source destination items).changes ≠ [] ∧
        Value.equalItems (moveIndex target source destination items).after items = true) ↔
      ∃ m, Elements.moveIndex items source destination = .ok m ∧ m.source ≠ m.target ∧
        Value.equalItems m.items items = true := by
  unfold moveIndex
  rcases Elements.moveIndex items source destination with e | m
  · exact iff_of_false (fun h => h.1 rfl) nofun
  · dsimp only
    by_cases hsame : m.source = m.target
    · rw [if_pos hsame]
      refine iff_of_false (fun h => h.1 rfl) ?_
      rintro ⟨m', hm, hne, -⟩
      obtain rfl := Except.ok.inj hm
      exact hne hsame
    · rw [if_neg hsame]
      constructor
      · rintro ⟨-, hequal⟩
        exact ⟨m, rfl, hsame, hequal⟩
      · rintro ⟨m', hm, -, hequal⟩
        obtain rfl := Except.ok.inj hm
        exact ⟨List.cons_ne_nil _ _, hequal⟩

/-! ### Collections -/

/-- A document in which an array was put where it was differs where the array does. -/
theorem equal_onArray (ht : .current ∉ target.steps) (hdoc : doc.IsPlain)
    (h : target.get? doc = some (.array items)) :
    (onArray clock target filter verb items doc).after.equal doc =
      Value.equalItems (editElements clock target filter verb items).after items := by
  show (Steps.replace doc target.steps _).equal doc = _
  rw [Steps.equal_replace ht hdoc.1 hdoc.2 h, Value.equal]

/-- Where something else stood than there was, the documents differ. -/
theorem not_equal_of_getD_null {after : Value} {v : Value} (hdoc : doc.IsPlain)
    (hafter : after.hasUniqueKeys = true) (hnull : (target.get? doc).getD .null = .null)
    (hget : target.get? after = some v) (hv : v ≠ .null) : after.equal doc = false := by
  rcases hold : target.get? doc with - | old
  · refine Steps.not_equal_of_isSome hdoc hafter target.steps ?_
    show (target.get? doc).isSome = !(target.get? after).isSome
    rw [hold, hget]
    rfl
  · rw [hold, Option.getD_some] at hnull
    subst hnull
    rw [Bool.eq_false_iff]
    intro hequal
    have hsame := Steps.equal_of_get? hdoc hafter hequal hold hget
    cases v with
    | null => exact hv rfl
    | _ => cases hsame

theorem editArray_genuine (hliterals : ∀ l ∈ verb.literals, (l.resolve clock).IsPlain)
    (ht : .current ∉ target.steps) (hdoc : doc.IsPlain)
    (hitems : ∀ items, target.get? doc = some (.array items) →
      (editElements clock target filter verb items).IsGenuine
        fun after => Value.equalItems after items = false) :
    (editArray clock target filter verb doc).IsGenuine fun after => after.equal doc = false := by
  have hplain := stable_editArray Value.stable_isPlain hdoc target filter
    fun l hl => hliterals l (verb.written_subset hl)
  have h := editsArray clock target filter verb doc
  generalize editArray clock target filter verb doc = effect at h hplain ⊢
  cases h with
  | found hget =>
    intro hchanges
    rw [equal_onArray ht hdoc hget]
    exact hitems _ hget hchanges
  | made hnull hinserting hmade =>
    exact fun _ => not_equal_of_getD_null hdoc hplain.2 hnull (Steps.get?_replace_self hmade)
      Value.noConfusion
  | refused => exact .silent rfl
  | missing => exact .silent rfl
  | other => exact .silent rfl

theorem merge_genuine {l : Literal} (isDeep : Bool) (hl : (l.resolve clock).IsPlain)
    (ht : .current ∉ target.steps) (hdoc : doc.IsPlain) :
    (merge clock target l isDeep doc).IsGenuine fun after => after.equal doc = false := by
  have h := merges clock target l isDeep doc
  generalize merge clock target l isDeep doc = effect at h ⊢
  cases h with
  | unchanged => exact .silent rfl
  | changed hsource hget hequal =>
    intro _
    show (Steps.replace doc target.steps _).equal doc = false
    rwa [Steps.equal_replace ht hdoc.1 hdoc.2 hget]
  | added hsource hnull hwritten =>
    have hplain := target.stable_set Value.stable_isPlain hdoc hl
    refine fun _ => not_equal_of_getD_null hdoc hplain.2 hnull (Steps.get?_set_self hwritten) ?_
    rw [hsource]
    exact Value.noConfusion
  | refused => exact .silent rfl
  | notAnObject => exact .silent rfl
  | valueNotAnObject => exact .silent rfl

theorem collection_genuine (hverb : ∀ i j, verb ≠ .moveIndex i j)
    (hliterals : ∀ l ∈ verb.literals, (l.resolve clock).IsPlain)
    (ht : .current ∉ target.steps) (hdoc : doc.IsPlain) :
    (collection clock target filter verb doc).IsGenuine
      fun after => after.equal doc = false := by
  unfold collection
  split
  · exact .silent rfl
  · split
    · exact merge_genuine _ (hliterals _ List.mem_cons_self) ht hdoc
    · exact editArray_genuine hliterals ht hdoc fun _ _ => editElements_genuine hverb

theorem collection_phantom_iff [Decimals]
    (hliterals : ∀ l ∈ verb.literals, (l.resolve clock).IsPlain)
    (ht : .current ∉ target.steps) (hdoc : doc.IsPlain) :
    ((collection clock target filter verb doc).changes ≠ [] ∧
        (collection clock target filter verb doc).after.equal doc = true) ↔
      Operation.Phantom doc (.collection target filter verb) := by
  have hgenuine : (∀ i j, verb ≠ .moveIndex i j) →
      ((collection clock target filter verb doc).changes ≠ [] ∧
        (collection clock target filter verb doc).after.equal doc = true) →
      Operation.Phantom doc (.collection target filter verb) := by
    rintro hverb ⟨hchanges, hequal⟩
    rw [collection_genuine hverb hliterals ht hdoc hchanges] at hequal
    cases hequal
  constructor
  · intro h
    cases verb with
    | moveIndex source destination =>
      rcases filter with - | c
      · obtain ⟨hchanges, hequal⟩ := h
        rw [collection_eq_editArray rfl fun _ _ => Verb.noConfusion] at hchanges hequal
        by_cases harray : ∃ items, target.get? doc = some (.array items)
        · obtain ⟨items, hget⟩ := harray
          rw [editArray_of_get? hget] at hchanges hequal
          rw [equal_onArray ht hdoc hget] at hequal
          obtain ⟨m, hm, hne, hsame⟩ := moveIndex_phantom_iff.1 ⟨hchanges, hequal⟩
          exact .move hget hm hne hsame
        · exact absurd (editArray_idle clock none rfl
            fun items hget => harray ⟨items, hget⟩).2 hchanges
      · exact absurd rfl h.1
    | _ => exact hgenuine (fun _ _ => Verb.noConfusion) h
  · rintro (_ | _ | ⟨hget, hmoved, hne, hequal⟩)
    rw [collection_eq_editArray rfl fun _ _ => Verb.noConfusion, editArray_of_get? hget,
      equal_onArray ht hdoc hget]
    exact moveIndex_phantom_iff.2 ⟨_, hmoved, hne, hequal⟩

end Run

/-! ### Runs -/

namespace Operation

variable {op : Operation} {clock : Clock} {doc : Value}

theorem phantom_iff [Decimals] (h : op.WellFormed)
    (hliterals : ∀ l ∈ op.literals, (l.resolve clock).IsPlain) (hdoc : doc.IsPlain) :
    ((op.apply clock doc).changes ≠ [] ∧ (op.apply clock doc).after.equal doc = true) ↔
      op.Phantom doc := by
  have hsteps : ∀ p ∈ op.places, .current ∉ p.steps := fun p hp => h.current_notMem hp
  have hgenuine : ((op.apply clock doc).IsGenuine fun after => after.equal doc = false) →
      ¬ ((op.apply clock doc).changes ≠ [] ∧ (op.apply clock doc).after.equal doc = true) := by
    rintro hgenuine ⟨hchanges, hequal⟩
    rw [hgenuine hchanges] at hequal
    cases hequal
  cases op with
  | set p l =>
    have hp := hsteps p (by simp [places])
    refine iff_of_false (hgenuine (Run.set_genuine hp (hliterals l List.mem_cons_self) hdoc)) ?_
    rintro ⟨⟩
  | delete p =>
    refine iff_of_false (hgenuine (Run.delete_genuine (hsteps p (by simp [places])) hdoc)) ?_
    rintro ⟨⟩
  | rename source target =>
    have hne : source.steps ≠ [] := by
      have hcurrent := h.fields rfl source (by simp [places])
      simpa [Path.isCurrent] using hcurrent
    refine iff_of_false (hgenuine (Run.rename_genuine (hsteps source (by simp [places])) hne
      (hsteps target (by simp [places])) hdoc)) ?_
    rintro ⟨⟩
  | increment p amount =>
    rw [apply, Run.step_phantom_iff (hsteps p (by simp [places])) _ _ _ hdoc]
    constructor
    · rintro ⟨n, hget, hequal⟩
      exact .increment hget hequal
    · rintro (⟨hget, hequal⟩ | _ | _)
      exact ⟨_, hget, hequal⟩
  | decrement p amount =>
    rw [apply, Run.step_phantom_iff (hsteps p (by simp [places])) _ _ _ hdoc]
    constructor
    · rintro ⟨n, hget, hequal⟩
      exact .decrement hget hequal
    · rintro (_ | ⟨hget, hequal⟩ | _)
      exact ⟨_, hget, hequal⟩
  | collection target filter verb =>
    exact Run.collection_phantom_iff hliterals (hsteps target List.mem_cons_self) hdoc

end Operation

namespace Action

variable {text : String} {action : Action} {op : Operation} {doc : Value}

/-- **A run of one operation that reports a change has made one**, unless it counts to an equal
number or moves an element past equal ones. -/
theorem changes_imp_modified_iff [Decimals] (htext : Action.ofText text = .ok action)
    (hops : action.operations = [op]) (clock : Clock) (hn : doc.isNaNFree = true)
    (hu : doc.hasUniqueKeys = true) :
    ((action.run clock doc).changes ≠ [] → (action.run clock doc).modified = true) ↔
      ¬ op.Phantom doc := by
  have hmem : op ∈ action.operations := hops ▸ List.mem_cons_self
  have hwf : op.WellFormed := (wellFormed_of_ofText htext).operations op hmem
  rw [← Operation.phantom_iff hwf (isPlain_literals htext clock op hmem) ⟨hn, hu⟩, not_and,
    Action.run, hops, Run.operations_cons_nil]
  simp only [Bool.not_eq_true', Bool.not_eq_true]

/-- A write of another value is a change. -/
theorem changes_imp_modified_set :
    let clock : Clock := ⟨2024, 1, 1, 0, 0, 0, 0⟩
    let a : Path := ⟨[.key "a"]⟩
    let action : Action := ⟨[.set a (.boolean false)]⟩
    let doc : Value := .object [("a", .boolean true)]
    (action.run clock doc).changes ≠ [] ∧
      ((action.run clock doc).changes ≠ [] → (action.run clock doc).modified = true) := by
  intro clock a action doc
  have htext : Action.ofText "SET a false" = .ok action := by decide +kernel
  exact ⟨List.cons_ne_nil _ _, (changes_imp_modified_iff htext rfl clock rfl rfl).2 nofun⟩

/-- A counter that goes up by nothing and an element that is moved past an equal one are
reported, and the document is what it was. -/
theorem changes_without_modified :
    let clock : Clock := ⟨2024, 1, 1, 0, 0, 0, 0⟩
    let a : Path := ⟨[.key "a"]⟩
    let count : Action := ⟨[.increment a (some .zero)]⟩
    let move : Action := ⟨[.collection a none (.moveIndex 0 1)]⟩
    let number : Value := .object [("a", .number (.ofNat 5))]
    let twins : Value := .object [("a", .array [.boolean true, .boolean true])]
    Action.ofText "INCREMENT a 0" = .ok count ∧
      (count.run clock number).changes = ["Incremented a: 5 → 5"] ∧
      (count.run clock number).modified = false ∧
      Action.ofText "FOR a MOVE FROM 0 TO 1" = .ok move ∧
      (move.run clock twins).changes = ["Moved a[0] to index 1"] ∧
      (move.run clock twins).modified = false := by
  intro clock a count move number twins
  refine ⟨?_, ?_, ?_, ?_, ?_, rfl⟩ <;> decide +kernel

end Action

end MetadataRules
