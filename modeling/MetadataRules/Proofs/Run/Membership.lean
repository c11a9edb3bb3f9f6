/-
MetadataRules/Proofs/Run/Membership.lean

Which values an array contains before and after a verb.

A verb answers for the values it names only.  Of the others, an array contains
after `Run.editElements` what it contained before (`isAmong_editElements`): it
is rearranged, or gets or loses elements that equal a value of the verb, or loses
elements that equal one it keeps.  Since equality is symmetric and transitive, an
element equal to another value is none of those.

A missing value counts as an array without elements, and so does `null`
(`Path.elements?`); a verb that succeeds was given no other value than these and
arrays.
-/
import MetadataRules.Number.Fixed
import MetadataRules.Proofs.Alike.Condition
import MetadataRules.Proofs.Run.Repeat

namespace MetadataRules

namespace Verb

/-- The values whose membership in the target a verb answers for; none where it depends on
what the elements are like. -/
def membersChanged? : Verb → Option (List Literal)
  | append l | prepend l | insert l _ | removeFirst l => some [l]
  | removeAll l => some l.entries
  | sort _ _ | moveIndex _ _ | moveMatching _ | deduplicate => some []
  | removeMatching | merge _ _ | update _ => none

/-- The value that a verb puts into an array. -/
def inserted? : Verb → Option Literal
  | append l | prepend l | insert l _ => some l
  | _ => none

theorem isInserting_eq (verb : Verb) : verb.isInserting = verb.inserted?.isSome := by
  cases verb <;> rfl

theorem mem_literals_of_inserted? {verb : Verb} {l : Literal} (h : verb.inserted? = some l) :
    l ∈ verb.literals := by
  cases verb with
  | append l' => exact Option.some.inj h ▸ List.mem_cons_self
  | prepend l' => exact Option.some.inj h ▸ List.mem_cons_self
  | insert l' index => exact Option.some.inj h ▸ List.mem_cons_self
  | _ => cases h

end Verb

/-! ### Lists of elements -/

namespace Elements

variable {items after targets kept : List Value} {v w : Value}

theorem isAmong_iff : w.isAmong items = true ↔ ∃ item ∈ items, item.equal w = true :=
  List.any_eq_true

theorem isAmong_eq_of_perm (h : after.Perm items) : w.isAmong after = w.isAmong items :=
  h.any_eq

/-- What was dropped does not matter if everything equal to the value has an equal left. -/
theorem isAmong_eq_of_subset (hsub : ∀ v ∈ after, v ∈ items)
    (hleft : ∀ v ∈ items, v.equal w = true → w.isAmong after = true) :
    w.isAmong after = w.isAmong items := by
  rw [Bool.eq_iff_iff]
  constructor
  · intro h
    obtain ⟨v, hv, heq⟩ := isAmong_iff.1 h
    exact isAmong_iff.2 ⟨v, hsub v hv, heq⟩
  · intro h
    obtain ⟨v, hv, heq⟩ := isAmong_iff.1 h
    exact hleft v hv heq

theorem isAmong_removeAll (hitems : ∀ v ∈ items, v.hasUniqueKeys = true)
    (hw : w.hasUniqueKeys = true) (htargets : ∀ t ∈ targets, t.hasUniqueKeys = true)
    (hother : ∀ t ∈ targets, w.equal t = false) :
    w.isAmong (removeAll items targets) = w.isAmong items := by
  refine isAmong_eq_of_subset (fun v hv => (List.mem_filter.1 hv).1) fun v hv heq => ?_
  refine isAmong_iff.2 ⟨v, List.mem_filter.2 ⟨hv, ?_⟩, heq⟩
  rw [Bool.not_eq_true', Bool.eq_false_iff]
  intro hremoved
  -- a target equal to the element would equal the value
  obtain ⟨t, ht, htv⟩ := isAmong_iff.1 hremoved
  have htw := Value.equal_trans (htargets t ht) (hitems v hv) hw htv heq
  have hwt := Value.equal_symm (htargets t ht) hw htw
  rw [hother t ht] at hwt
  cases hwt

/-- No entry that was removed is left. -/
theorem isAmong_removeAll_self (hitems : ∀ v ∈ items, v.hasUniqueKeys = true)
    (htargets : ∀ t ∈ targets, t.hasUniqueKeys = true) (hv : v ∈ targets) :
    v.isAmong (removeAll items targets) = false := by
  rw [Bool.eq_false_iff]
  intro hleft
  obtain ⟨item, hitem, heq⟩ := isAmong_iff.1 hleft
  obtain ⟨hmem, hkept⟩ := List.mem_filter.1 hitem
  have hremoved : item.isAmong targets = true :=
    isAmong_iff.2 ⟨v, hv, Value.equal_symm (hitems item hmem) (htargets v hv) heq⟩
  rw [hremoved] at hkept
  cases hkept

theorem isAmong_removeFirst (hitems : ∀ v ∈ items, v.hasUniqueKeys = true)
    (hw : w.hasUniqueKeys = true) (hv : v.hasUniqueKeys = true) (hother : w.equal v = false) :
    w.isAmong (removeFirst items v) = w.isAmong items := by
  refine isAmong_eq_of_subset (fun _ => List.mem_of_mem_eraseP) fun item hitem heq => ?_
  have hkept : ¬ item.equal v = true := by
    intro hremoved
    have hwitem := Value.equal_symm (hitems item hitem) hw heq
    rw [Value.equal_trans hw (hitems item hitem) hv hwitem hremoved] at hother
    cases hother
  refine isAmong_iff.2 ⟨item, (List.mem_eraseP_of_neg ?_).2 hitem, heq⟩
  exact hkept

/-- An element is kept, or equal to one that is. -/
theorem mem_or_isAmong_dedupAfter (kept : List Value) (hv : v ∈ items) :
    v ∈ dedupAfter kept items ∨ v.isAmong (kept ++ dedupAfter kept items) = true := by
  induction items generalizing kept with
  | nil => cases hv
  | cons item rest ih =>
    rw [dedupAfter]
    split
    · rename_i hdropped
      rcases List.mem_cons.1 hv with rfl | hv
      · right
        obtain ⟨k, hk, heq⟩ := isAmong_iff.1 hdropped
        exact isAmong_iff.2 ⟨k, List.mem_append_left _ hk, heq⟩
      · exact ih kept hv
    · rcases List.mem_cons.1 hv with rfl | hv
      · exact .inl List.mem_cons_self
      · rcases ih (kept ++ [item]) hv with hmem | hamong
        · exact .inl (List.mem_cons_of_mem _ hmem)
        · rw [List.append_assoc] at hamong
          exact .inr hamong

theorem isAmong_deduplicate (hitems : ∀ v ∈ items, v.hasUniqueKeys = true)
    (hw : w.hasUniqueKeys = true) : w.isAmong (deduplicate items) = w.isAmong items := by
  refine isAmong_eq_of_subset (fun _ => dedupAfter_sublist.mem) fun v hv heq => ?_
  rcases mem_or_isAmong_dedupAfter [] hv with hmem | hamong
  · exact isAmong_iff.2 ⟨v, hmem, heq⟩
  · -- the element that was kept in its place equals the value as well
    obtain ⟨k, hk, hkv⟩ := isAmong_iff.1 hamong
    have hku := hitems k (dedupAfter_sublist.mem hk)
    exact isAmong_iff.2 ⟨k, hk, Value.equal_trans hku (hitems v hv) hw hkv heq⟩

end Elements

/-! ### Verbs -/

namespace Run

variable {clock : Clock} {target : Path} {filter : Option Condition} {verb : Verb}
  {items : List Value} {w : Value} {changed : List Literal}

theorem isAmong_cons_of_ne {v : Value} (hv : v.hasUniqueKeys = true) (hw : w.hasUniqueKeys = true)
    (hother : w.equal v = false) : w.isAmong (v :: items) = w.isAmong items := by
  have hvw : v.equal w = false := by
    rw [Bool.eq_false_iff]
    intro heq
    rw [Value.equal_symm hv hw heq] at hother
    cases hother
  rw [Value.isAmong, List.any_cons, hvw, Bool.false_or]
  rfl

/-- An inserting verb adds its value to the elements. -/
theorem editElements_perm_of_inserted? {l : Literal} (h : verb.inserted? = some l) :
    (editElements clock target filter verb items).after.Perm (l.resolve clock :: items) := by
  cases verb with
  | append l' =>
    obtain rfl := Option.some.inj h
    exact List.perm_append_singleton _ _
  | prepend l' =>
    obtain rfl := Option.some.inj h
    exact .refl _
  | insert l' index =>
    obtain rfl := Option.some.inj h
    exact Elements.insertAt_perm _ _
  | _ => cases h

theorem after_sort_perm (by_ : Option Path) (direction : SortDirection) :
    (sort target by_ direction items).after.Perm items := by
  simp only [sort]
  split
  · exact Elements.sort_perm
  · split <;> exact Elements.sort_perm

theorem after_moveIndex_perm (source destination : Int) :
    (moveIndex target source destination items).after.Perm items := by
  simp only [moveIndex]
  split
  · exact .refl _
  · rename_i m hm
    split <;> exact Elements.moveIndex_perm hm

theorem after_moveMatching_perm (test : Value → Bool) (d : Destination) :
    (moveMatching clock target test d items).after.Perm items := by
  simp only [moveMatching]
  split
  · rename_i moved n hmoved
    split <;> exact Elements.moveWhere_perm hmoved
  · exact .refl _
  · exact .refl _

theorem after_removeAll (l : Literal) :
    (editElements clock target filter (.removeAll l) items).after =
      Elements.removeAll items (l.entries.map (Literal.resolve clock)) := by
  simp only [editElements]
  split
  · rename_i hnone
    exact (Elements.removeWhere_eq_self hnone).symm
  · rfl

/-- **A verb does not change what an array contains of the values it does not answer for.** -/
theorem isAmong_editElements (hchanged : verb.membersChanged? = some changed)
    (hitems : ∀ v ∈ items, v.hasUniqueKeys = true) (hw : w.hasUniqueKeys = true)
    (hother : ∀ l ∈ changed, w.equal (l.resolve clock) = false) :
    w.isAmong (editElements clock target filter verb items).after = w.isAmong items := by
  have hinserted : ∀ l, verb.inserted? = some l → l ∈ changed →
      w.isAmong (editElements clock target filter verb items).after = w.isAmong items := by
    intro l hl hmem
    rw [Elements.isAmong_eq_of_perm (editElements_perm_of_inserted? hl)]
    exact isAmong_cons_of_ne (l.hasUniqueKeys_resolve clock) hw (hother l hmem)
  cases verb with
  | append l => exact hinserted l rfl (Option.some.inj hchanged ▸ List.mem_cons_self)
  | prepend l => exact hinserted l rfl (Option.some.inj hchanged ▸ List.mem_cons_self)
  | insert l index => exact hinserted l rfl (Option.some.inj hchanged ▸ List.mem_cons_self)
  | removeAll l =>
    obtain rfl := Option.some.inj hchanged
    rw [after_removeAll]
    refine Elements.isAmong_removeAll hitems hw ?_ (List.forall_mem_map.2 hother)
    exact List.forall_mem_map.2 fun e _ => e.hasUniqueKeys_resolve clock
  | removeFirst l =>
    obtain rfl := Option.some.inj hchanged
    simp only [editElements]
    split
    · exact Elements.isAmong_removeFirst hitems hw (l.hasUniqueKeys_resolve clock)
        (hother l List.mem_cons_self)
    · rfl
  | sort by_ direction => exact Elements.isAmong_eq_of_perm (after_sort_perm by_ direction)
  | moveIndex source destination =>
    exact Elements.isAmong_eq_of_perm (after_moveIndex_perm source destination)
  | moveMatching d =>
    rcases filter with - | c
    · rfl
    · exact Elements.isAmong_eq_of_perm (after_moveMatching_perm (c.holds clock) d)
  | deduplicate =>
    simp only [editElements]
    split <;> exact Elements.isAmong_deduplicate hitems hw
  | _ => cases hchanged

end Run

/-! ### Targets -/

/-- The elements of the array that a path names.  A missing value counts as an array without
elements, and so does `null`. -/
def Path.elements? (p : Path) (doc : Value) : Option (List Value) :=
  match (p.get? doc).getD .null with
  | .array items => some items
  | .null => some []
  | _ => none

theorem Path.elements?_of_array {p : Path} {doc : Value} {items : List Value}
    (h : p.get? doc = some (.array items)) : p.elements? doc = some items := by
  simp only [Path.elements?, h, Option.getD_some]

theorem Path.hasUniqueKeys_of_elements? {p : Path} {doc : Value} {items : List Value}
    (hu : doc.hasUniqueKeys = true) (h : p.elements? doc = some items) :
    ∀ v ∈ items, v.hasUniqueKeys = true := by
  unfold Path.elements? at h
  split at h
  · rename_i items' hget
    obtain rfl := Option.some.inj h
    have harray := Value.stable_hasUniqueKeys.get? hu (Run.get?_of_getD hget Value.noConfusion)
    exact Value.hasUniqueKeys_array_iff.1 harray
  · obtain rfl := Option.some.inj h
    exact List.forall_mem_nil _
  · cases h

/-- A document contains a value at a path when the value is among the elements. -/
theorem Condition.holds_contains {p : Path} {doc : Value} {items : List Value}
    (h : p.elements? doc = some items) (clock : Clock) (w : Literal) :
    (Condition.contains p w).holds clock doc = (w.resolve clock).isAmong items := by
  unfold Path.elements? at h
  simp only [Condition.holds]
  rcases hget : p.get? doc with - | v
  · rw [hget] at h
    obtain rfl := Option.some.inj h
    rfl
  · rw [hget, Option.getD_some] at h
    cases v with
    | array items' =>
      obtain rfl := Option.some.inj h
      rfl
    | null =>
      obtain rfl := Option.some.inj h
      rfl
    | _ => cases h

namespace Run

variable {clock : Clock} {target : Path} {filter : Option Condition} {verb : Verb} {doc : Value}

/-- A verb that succeeds edits the elements of its target, or there are none and it puts none
there. -/
theorem elements?_editArray (h : (editArray clock target filter verb doc).failure = none) :
    ∃ items, target.elements? doc = some items ∧
      (target.elements? (editArray clock target filter verb doc).after =
          some (editElements clock target filter verb items).after ∨
        verb.isInserting = false ∧ items = [] ∧
          (editArray clock target filter verb doc).after = doc) := by
  have hedits := editsArray clock target filter verb doc
  generalize editArray clock target filter verb doc = effect at h hedits ⊢
  cases hedits with
  | @found items hget =>
    exact ⟨items, Path.elements?_of_array hget,
      .inl (Path.elements?_of_array (Steps.get?_replace_self hget))⟩
  | made hnull hinserting hmade =>
    refine ⟨[], by simp only [Path.elements?, hnull], .inl ?_⟩
    exact Path.elements?_of_array (Steps.get?_replace_self hmade)
  | refused => cases h
  | missing hnull hinserting =>
    exact ⟨[], by simp only [Path.elements?, hnull], .inr ⟨hinserting, rfl, rfl⟩⟩
  | other => cases h

end Run

/-! ### Runs -/

namespace Action

variable {text : String} {clock : Clock} {p : Path} {filter : Option Condition} {verb : Verb}
  {changed : List Literal} {doc : Value}

/-- A verb on elements that succeeds edits the elements of its target, or there are none and it
puts none there. -/
theorem elements?_run [Decimals] (hchanged : verb.membersChanged? = some changed)
    (hsuccess : ((Action.mk [.collection p filter verb]).run clock doc).success = true) :
    let after := ((Action.mk [.collection p filter verb]).run clock doc).newData
    ∃ items, p.elements? doc = some items ∧
      (p.elements? after = some (Run.editElements clock p filter verb items).after ∨
        verb.isInserting = false ∧ items = [] ∧ after = doc) := by
  have hmerge : ∀ l isDeep, verb ≠ .merge l isDeep := by
    rintro l isDeep rfl
    cases hchanged
  have hfailure : (Run.collection clock p filter verb doc).failure = none := by
    rw [← Option.isNone_iff_eq_none]
    rw [Action.run, Run.operations_cons_nil] at hsuccess
    exact hsuccess
  have hfilter : (filter.isSome && !verb.takesFilter) = false := by
    rw [Bool.eq_false_iff]
    intro hrejected
    unfold Run.collection at hfailure
    rw [if_pos hrejected] at hfailure
    cases hfailure
  have hedit : Run.operations clock [.collection p filter verb] doc =
      Run.editArray clock p filter verb doc :=
    (Run.operations_cons_nil clock _ doc).trans (Run.collection_eq_editArray hfilter hmerge)
  rw [Run.collection_eq_editArray hfilter hmerge] at hfailure
  rw [Action.run, hedit]
  exact Run.elements?_editArray hfailure

/-- **What an array contains after a verb.**  A value that was inserted is contained and an
entry that was removed is not; of every other value the array contains what it did before. -/
theorem contains_run [Decimals] (htext : Action.ofText text = .ok ⟨[.collection p filter verb]⟩)
    (clock : Clock) (hu : doc.hasUniqueKeys = true)
    (hsuccess : ((Action.mk [.collection p filter verb]).run clock doc).success = true)
    (hchanged : verb.membersChanged? = some changed) :
    let after := ((Action.mk [.collection p filter verb]).run clock doc).newData
    (∀ l, verb.inserted? = some l → (Condition.contains p l).holds clock after = true) ∧
    (∀ l, verb = .removeAll l → ∀ e ∈ l.entries,
      (Condition.contains p e).holds clock after = false) ∧
    ∀ w : Literal, (∀ l ∈ changed, (w.resolve clock).equal (l.resolve clock) = false) →
      (Condition.contains p w).holds clock after = (Condition.contains p w).holds clock doc := by
  intro after
  obtain ⟨items, hitems, hafter⟩ := elements?_run hchanged hsuccess
  have hunique := Path.hasUniqueKeys_of_elements? hu hitems
  rcases hafter with hafter | ⟨hinserting, rfl, hafter⟩
  · refine ⟨fun l hl => ?_, ?_, fun w hother => ?_⟩
    · have hplain : (l.resolve clock).IsPlain :=
        isPlain_literals htext clock _ List.mem_cons_self l (Verb.mem_literals_of_inserted? hl)
      rw [Condition.holds_contains hafter, Elements.isAmong_eq_of_perm
        (Run.editElements_perm_of_inserted? hl), Value.isAmong, List.any_cons, hplain.equal_refl,
        Bool.true_or]
    · rintro l rfl e he
      rw [Condition.holds_contains hafter, Run.after_removeAll]
      exact Elements.isAmong_removeAll_self hunique
        (List.forall_mem_map.2 fun e _ => e.hasUniqueKeys_resolve clock) (List.mem_map_of_mem he)
    · rw [Condition.holds_contains hafter, Condition.holds_contains hitems]
      exact Run.isAmong_editElements hchanged hunique (w.hasUniqueKeys_resolve clock) hother
  · -- there is no array, and there was none
    have hdoc : after = doc := hafter
    rw [hdoc]
    refine ⟨fun l hl => ?_, ?_, fun _ _ => rfl⟩
    · rw [Verb.isInserting_eq, hl] at hinserting
      cases hinserting
    · rintro l rfl e he
      rw [Condition.holds_contains hitems]
      rfl

/-- An entry is gone from an array, and another value is still there. -/
theorem contains_run_removeAll :
    let clock : Clock := ⟨2024, 1, 1, 0, 0, 0, 0⟩
    let p : Path := ⟨[.key "tags"]⟩
    let verb : Verb := .removeAll (.array [.string "a"])
    let action : Action := ⟨[.collection p none verb]⟩
    let doc : Value := .object [("tags", .array [.string "a", .string "b", .string "a"])]
    let after := (action.run clock doc).newData
    (Condition.contains p (.string "a")).holds clock after = false ∧
      (Condition.contains p (.string "b")).holds clock after = true := by
  intro clock p verb action doc after
  have htext : Action.ofText "FOR tags REMOVE_ALL [\"a\"]" = .ok action := by decide +kernel
  have hunique : doc.hasUniqueKeys = true := rfl
  obtain ⟨-, hremoved, hother⟩ := contains_run htext clock hunique rfl rfl
  exact ⟨hremoved _ rfl _ List.mem_cons_self,
    hother (.string "b") fun l hl => by rw [List.mem_singleton.1 hl]; rfl⟩

end Action

end MetadataRules
