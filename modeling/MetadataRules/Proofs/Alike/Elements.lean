/-
MetadataRules/Proofs/Alike/Elements.lean

Verbs on lists of elements that are alike.

Two arrays whose elements differ in the order of their keys stay such arrays,
whatever verb is used on both: which elements are equal, which pass a filter and
how they are sorted does not depend on the order of keys, so every verb does the
same at the same positions.  An effect is two things here, what is there
afterwards and how much was reported (`Effect.Alike`).
-/
import MetadataRules.Proofs.Alike.Condition
import MetadataRules.Run.Elements

namespace MetadataRules

open Value (Reordered)

/-! ### Lists of related elements -/

section Lists

variable {α β : Type} {R : α → β → Prop} {as : List α} {bs : List β} {a : α} {b : β}
  {p : α → Bool} {q : β → Bool}

theorem forall₂_insertIdx (h : List.Forall₂ R as bs) (hab : R a b) (i : Nat) :
    List.Forall₂ R (as.insertIdx i a) (bs.insertIdx i b) := by
  obtain ⟨pairs, rfl, rfl, hpairs⟩ := exists_pairs_of_forall₂ h
  have hleft := List.map_insertIdx Prod.fst pairs i (a, b)
  have hright := List.map_insertIdx Prod.snd pairs i (a, b)
  rw [← hleft, ← hright]
  apply forall₂_of_pairs
  intro pair hpair
  rcases List.eq_or_mem_of_mem_insertIdx hpair with rfl | hpair
  · exact hab
  · exact hpairs pair hpair

theorem forall₂_filter (h : List.Forall₂ R as bs) (hpq : ∀ a b, R a b → p a = q b) :
    List.Forall₂ R (as.filter p) (bs.filter q) := by
  refine List.rel_filter (fun a b hab => ?_) h
  show p a = true ↔ q b = true
  rw [hpq a b hab]

theorem forall₂_eraseP (h : List.Forall₂ R as bs) (hpq : ∀ a b, R a b → p a = q b) :
    List.Forall₂ R (as.eraseP p) (bs.eraseP q) := by
  induction h with
  | nil => exact .nil
  | @cons a b as bs hab hrest ih =>
    rw [List.eraseP_cons, List.eraseP_cons, hpq a b hab]
    cases q b with
    | true => exact hrest
    | false => exact .cons hab ih

theorem findIdx?_eq_of_forall₂ (h : List.Forall₂ R as bs) (hpq : ∀ a b, R a b → p a = q b) :
    as.findIdx? p = bs.findIdx? q := by
  induction h with
  | nil => rfl
  | cons hab _ ih => rw [List.findIdx?_cons, List.findIdx?_cons, hpq _ _ hab, ih]

/-- A merge sort of both lists moves related elements to the same places. -/
theorem forall₂_mergeSort {le : α → α → Bool} {le' : β → β → Bool} (h : List.Forall₂ R as bs)
    (hle : ∀ a b, R a b → ∀ a' b', R a' b' → le a a' = le' b b') :
    List.Forall₂ R (as.mergeSort le) (bs.mergeSort le') := by
  obtain ⟨pairs, rfl, rfl, hpairs⟩ := exists_pairs_of_forall₂ h
  -- sort the pairs by their left halves
  have hleft : (pairs.mergeSort fun x y => le x.1 y.1).map Prod.fst =
      (pairs.map Prod.fst).mergeSort le :=
    List.map_mergeSort fun _ _ _ _ => rfl
  have hright : (pairs.mergeSort fun x y => le x.1 y.1).map Prod.snd =
      (pairs.map Prod.snd).mergeSort le' :=
    List.map_mergeSort fun x hx y hy => hle _ _ (hpairs x hx) _ _ (hpairs y hy)
  rw [← hleft, ← hright]
  exact forall₂_of_pairs fun pair hpair => hpairs pair (List.mem_mergeSort.1 hpair)

end Lists

/-! ### Elements -/

namespace Elements

variable {as bs ts us : List Value} {v w : Value} {test : Value → Bool}

/-- A test that does not look at the order of keys. -/
def Blind (test : Value → Bool) : Prop := ∀ a b, Reordered a b → test a = test b

theorem insertAt_alike (h : List.Forall₂ Reordered as bs) (hvw : Reordered v w) (index : Int) :
    List.Forall₂ Reordered (insertAt as v index) (insertAt bs w index) := by
  unfold insertAt
  rw [h.length_eq]
  exact forall₂_insertIdx h hvw _

theorem equal_eq (hv : Reordered v w) {a b : Value} (h : Reordered a b) :
    a.equal v = b.equal w := Value.equal_congr h.tied hv.tied

theorem isAmong_eq (hv : Reordered v w) (h : List.Forall₂ Reordered as bs) :
    v.isAmong as = w.isAmong bs := any_congr_of_forall₂ h fun _ _ hab => equal_eq hv hab

theorem removeAll_alike (h : List.Forall₂ Reordered as bs) (ht : List.Forall₂ Reordered ts us) :
    List.Forall₂ Reordered (removeAll as ts) (removeAll bs us) :=
  forall₂_filter h fun _ _ hab => congrArg (!·) (isAmong_eq hab ht)

theorem removeFirst_alike (h : List.Forall₂ Reordered as bs) (hvw : Reordered v w) :
    List.Forall₂ Reordered (removeFirst as v) (removeFirst bs w) :=
  forall₂_eraseP h fun _ _ hab => equal_eq hvw hab

theorem removeWhere_alike (h : List.Forall₂ Reordered as bs) (htest : Blind test) :
    List.Forall₂ Reordered (removeWhere as test) (removeWhere bs test) :=
  forall₂_filter h fun a b hab => congrArg (!·) (htest a b hab)

theorem dedupAfter_alike (h : List.Forall₂ Reordered as bs) (hk : List.Forall₂ Reordered ts us) :
    List.Forall₂ Reordered (dedupAfter ts as) (dedupAfter us bs) := by
  induction h generalizing ts us with
  | nil => exact .nil
  | @cons a b as bs hab _ ih =>
    rw [dedupAfter, dedupAfter, isAmong_eq hab hk]
    split
    · exact ih hk
    · exact .cons hab (ih (List.rel_append hk (.cons hab .nil)))

/-! ### Sorting -/

theorem sortKey_alike (by_ : Option Path) (h : Reordered v w) :
    Option.Rel Reordered (sortKey by_ v) (sortKey by_ w) := by
  cases by_ with
  | none => exact .some h
  | some p => exact Steps.get?_alike h p.steps

theorem mayPrecede_congr {a a' b b' : Option Value} (ha : Option.Rel Reordered a a')
    (hb : Option.Rel Reordered b b') (direction : SortDirection) :
    mayPrecede direction a b = mayPrecede direction a' b' := by
  have horder : Value.sortOrderOption a b = Value.sortOrderOption a' b' := by
    cases ha with
    | none => cases hb <;> rfl
    | some ha =>
      cases hb with
      | none => rfl
      | some hb => exact Value.sortOrder_congr ha hb
  cases direction <;> simp only [mayPrecede, horder]

theorem sort_alike (h : List.Forall₂ Reordered as bs) (by_ : Option Path)
    (direction : SortDirection) :
    List.Forall₂ Reordered (sort as by_ direction) (sort bs by_ direction) := by
  -- an element and its key on either side
  let Keyed (x y : Option Value × Value) : Prop :=
    Option.Rel Reordered x.1 y.1 ∧ Reordered x.2 y.2
  have hkeyed : List.Forall₂ Keyed (as.map fun item => (sortKey by_ item, item))
      (bs.map fun item => (sortKey by_ item, item)) :=
    List.rel_map (fun _ _ hab => ⟨sortKey_alike by_ hab, hab⟩) h
  have hsorted := forall₂_mergeSort hkeyed
    fun _ _ hxy _ _ hxy' => mayPrecede_congr hxy.1 hxy'.1 direction
  exact List.rel_map (fun _ _ hxy => hxy.2) hsorted

/-! ### Moving -/

theorem moveIndex_alike (h : List.Forall₂ Reordered as bs) (source target : Int) :
    (∃ e, moveIndex as source target = .error e ∧ moveIndex bs source target = .error e) ∨
      ∃ m n, moveIndex as source target = .ok m ∧ moveIndex bs source target = .ok n ∧
        List.Forall₂ Reordered m.items n.items ∧ m.source = n.source ∧ m.target = n.target := by
  unfold moveIndex
  rw [h.length_eq]
  cases position? source bs.length with
  | none => exact .inl ⟨_, rfl, rfl⟩
  | some s =>
    cases position? target bs.length with
    | none => exact .inl ⟨_, rfl, rfl⟩
    | some t =>
      dsimp only
      rcases optionRel_iff.1 (forall₂_getElem? h s) with ⟨ha, hb⟩ | ⟨v, w, ha, hb, hvw⟩ <;>
        rw [ha, hb]
      · exact .inr ⟨_, _, rfl, rfl, h, rfl, rfl⟩
      · exact .inr ⟨_, _, rfl, rfl, forall₂_insertIdx (forall₂_eraseIdx h s) hvw t, rfl, rfl⟩

/-- A placement by a test that does not look at the order of keys. -/
def Placement.Blind : Placement → Prop
  | start | finish => True
  | after anchor | before anchor => Elements.Blind anchor

theorem Placement.position?_eq {placement : Placement} (hplacement : placement.Blind)
    (h : List.Forall₂ Reordered as bs) : placement.position? as = placement.position? bs := by
  cases placement with
  | start => rfl
  | finish => exact congrArg some h.length_eq
  | after anchor => exact congrArg (Option.map _) (findIdx?_eq_of_forall₂ h hplacement)
  | before anchor => exact findIdx?_eq_of_forall₂ h hplacement

/-- Two moves of a block that end alike. -/
inductive BlockMove.Alike : BlockMove → BlockMove → Prop
  | moved {as bs : List Value} (h : List.Forall₂ Reordered as bs) (n : Nat) :
      Alike (.moved as n) (.moved bs n)
  | noMatches : Alike .noMatches .noMatches
  | anchorNotFound : Alike .anchorNotFound .anchorNotFound

theorem moveWhere_alike {placement : Placement} (h : List.Forall₂ Reordered as bs)
    (htest : Blind test) (hplacement : placement.Blind) :
    (moveWhere as test placement).Alike (moveWhere bs test placement) := by
  have hblock : List.Forall₂ Reordered (as.filter test) (bs.filter test) :=
    forall₂_filter h htest
  have hrest : List.Forall₂ Reordered (as.filter fun item => !test item)
      (bs.filter fun item => !test item) := removeWhere_alike h htest
  have hempty : (as.filter test).isEmpty = (bs.filter test).isEmpty := by
    rw [Bool.eq_iff_iff, List.isEmpty_iff_length_eq_zero, List.isEmpty_iff_length_eq_zero,
      hblock.length_eq]
  simp only [moveWhere, hempty, hblock.length_eq]
  rw [Placement.position?_eq hplacement hrest]
  split
  · exact .noMatches
  · cases placement.position? (bs.filter fun item => !test item) with
    | none => exact .anchorNotFound
    | some pos =>
      have hfront := List.forall₂_take pos hrest
      have hback := List.forall₂_drop pos hrest
      exact .moved (List.rel_append hfront (List.rel_append hblock hback)) _

end Elements

/-! ### Effects -/

/-- Two effects with related outcomes that report as many lines and fail together. -/
structure Effect.Alike {α β : Type} (R : α → β → Prop) (e : Effect α) (f : Effect β) : Prop where
  after : R e.after f.after
  changes : e.changes.length = f.changes.length
  warnings : e.warnings.length = f.warnings.length
  failure : e.failure.isSome = f.failure.isSome

namespace Effect.Alike

variable {α β α' β' : Type} {R : α → β → Prop} {R' : α' → β' → Prop} {a : α} {b : β}

theorem unchanged (h : R a b) : Alike R (.unchanged a) (.unchanged b) := ⟨h, rfl, rfl, rfl⟩

theorem changed (h : R a b) (line line' : String) : Alike R (.changed a line) (.changed b line') :=
  ⟨h, rfl, rfl, rfl⟩

theorem warned (h : R a b) (line line' : String) : Alike R (.warned a line) (.warned b line') :=
  ⟨h, rfl, rfl, rfl⟩

theorem failed (h : R a b) (failure failure' : Failure) :
    Alike R (.failed a failure) (.failed b failure') := ⟨h, rfl, rfl, rfl⟩

theorem lift {e : Effect α} {f : Effect β} {g : α → α'} {g' : β → β'} (h : Alike R e f)
    (hg : ∀ a b, R a b → R' (g a) (g' b)) : Alike R' (e.lift g) (f.lift g') :=
  ⟨hg _ _ h.after, h.changes, h.warnings, h.failure⟩

end Effect.Alike

/-! ### Verbs -/

namespace Run

open Elements (Blind)

variable {as bs : List Value} {v w : Value} {test : Value → Bool} {clock : Clock}

theorem assignAll_alike {values : List (Path × Value)} (hvalues : ∀ a ∈ values, Reordered a.2 a.2)
    (h : Reordered v w) :
    Reordered (assignAll v values).value (assignAll w values).value ∧
      (assignAll v values).refused.isSome = (assignAll w values).refused.isSome := by
  induction values generalizing v w with
  | nil => exact ⟨h, rfl⟩
  | cons a rest ih =>
    obtain ⟨p, new⟩ := a
    obtain ⟨hnew, hrest⟩ := List.forall_mem_cons.1 hvalues
    obtain ⟨hvalue, hok⟩ := Steps.set_alike (.some h) hnew p.steps
    simp only [assignAll, Path.set]
    cases hv : (Steps.set (some v) p.steps new).answer <;>
      cases hw : (Steps.set (some w) p.steps new).answer <;> rw [hv, hw] at hok
    case error.error => exact ⟨hvalue, rfl⟩
    case ok.ok => exact ih hrest hvalue
    all_goals cases hok

theorem updateFrom_alike (target : Path) (htest : Blind test) {values : List (Path × Value)}
    (hvalues : ∀ a ∈ values, Reordered a.2 a.2) (h : List.Forall₂ Reordered as bs)
    (index : Nat) :
    (updateFrom target test values index as).Alike (List.Forall₂ Reordered)
      (updateFrom target test values index bs) := by
  induction h generalizing index with
  | nil => exact .unchanged .nil
  | @cons a b as bs hab hrest ih =>
    rw [updateFrom, updateFrom, htest a b hab]
    split
    · obtain ⟨hvalue, hrefused⟩ := assignAll_alike hvalues hab
      have hequal : (assignAll a values).value.equal a = (assignAll b values).value.equal b :=
        Value.equal_congr hvalue.tied hab.tied
      dsimp only
      cases ha : (assignAll a values).refused <;> cases hb : (assignAll b values).refused <;>
        rw [ha, hb] at hrefused
      case none.none =>
        have hbelow := ih (index + 1)
        refine ⟨.cons hvalue hbelow.after, ?_, hbelow.warnings, hbelow.failure⟩
        dsimp only
        rw [hequal, List.length_append, List.length_append, hbelow.changes]
      case some.some => exact .failed (.cons hvalue hrest) _ _
      all_goals cases hrefused
    · exact (ih (index + 1)).lift fun _ _ hbelow => .cons hab hbelow

theorem update_alike (target : Path) (htest : Blind test) {values : List (Path × Value)}
    (hvalues : ∀ a ∈ values, Reordered a.2 a.2) (h : List.Forall₂ Reordered as bs) :
    (update target test values as).Alike (List.Forall₂ Reordered)
      (update target test values bs) := by
  unfold update
  rw [any_congr_of_forall₂ h htest]
  split
  · exact updateFrom_alike target htest hvalues h 0
  · exact .warned h _ _

/-- Arrays of elements that are alike are equal to as many others. -/
theorem equalItems_eq {as' bs' : List Value} (h : List.Forall₂ Reordered as bs)
    (h' : List.Forall₂ Reordered as' bs') : Value.equalItems as as' = Value.equalItems bs bs' := by
  have harrays := Value.equal_congr (Value.Alike.array h).tied (Value.Alike.array h').tied
  rwa [Value.equal, Value.equal] at harrays

theorem sort_alike (target : Path) (by_ : Option Path) (direction : SortDirection)
    (h : List.Forall₂ Reordered as bs) :
    (sort target by_ direction as).Alike (List.Forall₂ Reordered)
      (sort target by_ direction bs) := by
  have hsorted := Elements.sort_alike h by_ direction
  simp only [sort]
  rw [equalItems_eq hsorted h]
  split
  · exact .unchanged hsorted
  · cases by_ <;> exact .changed hsorted _ _

theorem moveIndex_alike (target : Path) (source destination : Int)
    (h : List.Forall₂ Reordered as bs) :
    (moveIndex target source destination as).Alike (List.Forall₂ Reordered)
      (moveIndex target source destination bs) := by
  unfold moveIndex
  rcases Elements.moveIndex_alike h source destination with
    ⟨e, ha, hb⟩ | ⟨m, n, ha, hb, hitems, hsource, htarget⟩ <;> rw [ha, hb]
  · exact .failed h _ _
  · dsimp only
    rw [hsource, htarget]
    split
    · exact .unchanged hitems
    · exact .changed hitems _ _

/-- Conditions do not look at the order of keys. -/
theorem blind_holds (clock : Clock) (c : Condition) : Blind (c.holds clock) :=
  fun _ _ hab => c.holds_congr hab.tied clock

theorem blind_placement (clock : Clock) (d : Destination) : (placement clock d).Blind := by
  cases d with
  | start => trivial
  | finish => trivial
  | after anchor => exact blind_holds clock anchor
  | before anchor => exact blind_holds clock anchor

theorem moveMatching_alike (target : Path) (htest : Blind test) (d : Destination)
    (h : List.Forall₂ Reordered as bs) :
    (moveMatching clock target test d as).Alike (List.Forall₂ Reordered)
      (moveMatching clock target test d bs) := by
  have hmoves := Elements.moveWhere_alike h htest (blind_placement clock d)
  simp only [moveMatching]
  cases ha : Elements.moveWhere as test (placement clock d) <;>
    cases hb : Elements.moveWhere bs test (placement clock d) <;> rw [ha, hb] at hmoves <;>
    cases hmoves
  case moved.moved.moved hitems =>
    dsimp only
    rw [equalItems_eq hitems h]
    split
    · exact .unchanged hitems
    · exact .changed hitems _ _
  all_goals exact .warned h _ _

/-- **A verb does the same to elements that are alike.** -/
theorem editElements_alike (clock : Clock) (target : Path) (filter : Option Condition)
    (verb : Verb) (h : List.Forall₂ Reordered as bs) :
    (editElements clock target filter verb as).Alike (List.Forall₂ Reordered)
      (editElements clock target filter verb bs) := by
  have hliteral : ∀ l : Literal, Reordered (l.resolve clock) (l.resolve clock) :=
    fun l => l.alike_resolve (fun _ => rfl) clock
  have hfilter : ∀ {effect effect' : Condition → Effect (List Value)},
      (∀ c, (effect c).Alike (List.Forall₂ Reordered) (effect' c)) →
        (withFilter verb target filter as effect).Alike (List.Forall₂ Reordered)
          (withFilter verb target filter bs effect') := by
    intro effect effect' heffect
    cases filter with
    | none => exact .failed h _ _
    | some c => exact heffect c
  cases verb with
  | append l => exact .changed (List.rel_append h (.cons (hliteral l) .nil)) _ _
  | prepend l => exact .changed (.cons (hliteral l) h) _ _
  | insert l index => exact .changed (Elements.insertAt_alike h (hliteral l) index) _ _
  | removeAll l =>
    have htargets : List.Forall₂ Reordered (l.entries.map (Literal.resolve clock))
        (l.entries.map (Literal.resolve clock)) := by
      rw [List.forall₂_same, List.forall_mem_map]
      exact fun entry _ => hliteral entry
    have hkept := Elements.removeAll_alike h htargets
    simp only [editElements, h.length_eq, hkept.length_eq]
    split
    · exact .warned h _ _
    · exact .changed hkept _ _
  | removeFirst l =>
    have hany : (as.any fun item => item.equal (l.resolve clock)) =
        bs.any fun item => item.equal (l.resolve clock) :=
      any_congr_of_forall₂ h fun _ _ hab => Elements.equal_eq (hliteral l) hab
    simp only [editElements, hany]
    split
    · exact .changed (Elements.removeFirst_alike h (hliteral l)) _ _
    · exact .warned h _ _
  | removeMatching =>
    refine hfilter fun c => ?_
    have hkept := Elements.removeWhere_alike h (blind_holds clock c)
    simp only [h.length_eq, hkept.length_eq]
    split
    · exact .warned h _ _
    · exact .changed hkept _ _
  | sort by_ direction => exact sort_alike target by_ direction h
  | moveIndex source destination => exact moveIndex_alike target source destination h
  | moveMatching d =>
    exact hfilter fun c => moveMatching_alike target (blind_holds clock c) d h
  | deduplicate =>
    have hkept : List.Forall₂ Reordered (Elements.deduplicate as) (Elements.deduplicate bs) :=
      Elements.dedupAfter_alike h .nil
    simp only [editElements, h.length_eq, hkept.length_eq]
    split
    · exact .unchanged hkept
    · exact .changed hkept _ _
  | update assignments =>
    refine hfilter fun c => update_alike target (blind_holds clock c) ?_ h
    rw [List.forall_mem_map]
    exact fun a _ => hliteral a.2
  | merge l deep => exact .failed h _ _

end Run

end MetadataRules
