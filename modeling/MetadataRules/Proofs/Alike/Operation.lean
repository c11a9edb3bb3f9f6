/-
MetadataRules/Proofs/Alike/Operation.lean

Runs on documents that list their keys in another order.

An operation on two such documents goes the same way on both: it finds alike
values at the same places, compares them with the same outcome and writes alike
values back.  So it reports as much and fails together, and it leaves documents
behind that differ in the order of keys only (`Operation.apply_alike`).  The
same then holds of a run of operations (`Run.operations_alike`).  This needs
nothing of the operations; they may be of no rule text.
-/
import MetadataRules.Number.Fixed
import MetadataRules.Proofs.Alike.Elements
import MetadataRules.Proofs.Merge
import MetadataRules.Run.Action

namespace MetadataRules

open Value (Alike Reordered)

/-! ### Merging -/

namespace Merge

variable {combine : Option Value → Value → Value} {target target' source : Fields Value}

theorem into_alike (hcombine : ∀ e ∈ source, ∀ x y, Option.Rel Reordered x y →
      Reordered (combine x e.2) (combine y e.2))
    (h : Reordered (.object target) (.object target')) :
    Reordered (.object (into combine target source)) (.object (into combine target' source)) := by
  induction source generalizing target target' with
  | nil => exact h
  | cons e rest ih =>
    obtain ⟨he, hrest⟩ := List.forall_mem_cons.1 hcombine
    rw [into_cons, into_cons]
    exact ih hrest (h.insert (he _ _ (h.get? e.1)) e.1)

/-- The value of a key after a deep merge into values that are alike. -/
theorem deepValue_alike {v : Value} (hv : v.hasUniqueKeys = true) {x y : Option Value}
    (h : Option.Rel Reordered x y) : Reordered (deepValue x v) (deepValue y v) := by
  have hself : Reordered v v := .refl (fun _ => rfl) hv
  induction v generalizing x y with
  | object incoming ih =>
    have hparts := (Value.hasUniqueKeys_object_iff.1 hv).2
    cases h with
    | none => simpa [deepValue] using hself
    | some hxy =>
      cases hxy with
      | object hleft hright hfields =>
        simp only [deepValue, deep_eq_into]
        refine into_alike (fun e he x y hxy => ?_) (.object hleft hright hfields)
        exact ih e he (hparts e he) hxy (.refl (fun _ => rfl) (hparts e he))
      | _ => simpa [deepValue] using hself
  | _ => simpa [deepValue] using hself

theorem deep_alike (hsource : (Value.object source).hasUniqueKeys = true)
    (h : Reordered (.object target) (.object target')) :
    Reordered (.object (deep target source)) (.object (deep target' source)) := by
  have hparts := (Value.hasUniqueKeys_object_iff.1 hsource).2
  rw [deep_eq_into, deep_eq_into]
  exact into_alike (fun e he _ _ hxy => deepValue_alike (hparts e he) hxy) h

theorem shallow_alike (hsource : (Value.object source).hasUniqueKeys = true)
    (h : Reordered (.object target) (.object target')) :
    Reordered (.object (shallow target source)) (.object (shallow target' source)) := by
  have hparts := (Value.hasUniqueKeys_object_iff.1 hsource).2
  rw [shallow_eq_into, shallow_eq_into]
  exact into_alike (fun e he _ _ _ => .refl (fun _ => rfl) (hparts e he)) h

end Merge

/-! ### Fields -/

namespace Run

variable {a b v w : Value} {clock : Clock}

/-- A value of a rule is like itself. -/
theorem reordered_resolve (clock : Clock) (l : Literal) :
    Reordered (l.resolve clock) (l.resolve clock) := l.alike_resolve (fun _ => rfl) clock

theorem get?_alike (p : Path) (h : Reordered a b) :
    Option.Rel Reordered (p.get? a) (p.get? b) := Steps.get?_alike h p.steps

theorem any_equal_eq {x y : Option Value} (hxy : Option.Rel Reordered x y)
    (hvw : Reordered v w) :
    (x.any fun old => old.equal v) = y.any fun old => old.equal w := by
  cases hxy with
  | none => rfl
  | some h => exact Elements.equal_eq hvw h

/-- What is done with the answers of two writes that are alike is done to both. -/
theorem written_alike {s t : Written} (h : s.Alike Eq t) {e f : Effect Value}
    (hok : ∀ x y, s.answer = .ok x → t.answer = .ok y → e.Alike Reordered f)
    (herror : ∀ r r', s.answer = .error r → t.answer = .error r' → e.Alike Reordered f) :
    e.Alike Reordered f := by
  have hisOk := h.isOk
  cases hs : s.answer <;> cases ht : t.answer <;> rw [hs, ht] at hisOk
  case ok.ok x y => exact hok x y hs ht
  case error.error r r' => exact herror r r' hs ht
  all_goals cases hisOk

theorem set_alike (p : Path) (l : Literal) (h : Reordered a b) :
    (set clock p l a).Alike Reordered (set clock p l b) := by
  have hl := reordered_resolve clock l
  have hwritten : (p.set a (l.resolve clock)).Alike Eq (p.set b (l.resolve clock)) :=
    Steps.set_alike (.some h) hl p.steps
  simp only [set]
  rw [any_equal_eq (get?_alike p h) hl]
  split
  · exact .unchanged h
  · apply written_alike hwritten
    · intro x y hx hy
      rw [hx, hy]
      cases x <;> cases y <;> exact .changed hwritten.value _ _
    · intro r r' hr hr'
      rw [hr, hr']
      exact .failed hwritten.value _ _

theorem delete_alike (p : Path) (h : Reordered a b) :
    (delete p a).Alike Reordered (delete p b) := by
  unfold delete
  rcases optionRel_iff.1 (Steps.erase?_alike h p.steps) with
    ⟨ha, hb⟩ | ⟨x, y, ha, hb, -, hrest⟩ <;> rw [Path.erase?, Path.erase?, ha, hb]
  · exact .warned h _ _
  · exact .changed hrest _ _

theorem without_alike (p : Path) (h : Reordered a b) :
    Reordered (without p a) (without p b) := by
  unfold without
  rcases optionRel_iff.1 (Steps.erase?_alike h p.steps) with
    ⟨ha, hb⟩ | ⟨x, y, ha, hb, -, hrest⟩ <;> rw [Path.erase?, Path.erase?, ha, hb]
  · exact h
  · exact hrest

/-- A leading `@` is a step that stays where it is. -/
theorem get?_eq_segments (p : Path) (root : Value) :
    p.get? root = Steps.get? root p.segments := by
  obtain ⟨segments⟩ := p
  unfold Path.get? Path.steps
  split
  · rename_i rest heq
    obtain rfl : segments = .current :: rest := heq
    have hself : root.child? .current = some root := by simp [Value.child?]
    rw [Steps.get?_cons, hself, Option.bind_some]
  · rfl

/-- The last key of a path that leads nowhere is new to the object above it. -/
theorem get?_splitKey? {p parent : Path} {name : String} {fields : Fields Value}
    (hp : p.splitKey? = some (parent, name)) (hnone : p.get? v = none)
    (hparent : parent.get? v = some (.object fields)) : Fields.get? fields name = none := by
  unfold Path.splitKey? at hp
  split at hp
  · rename_i key hlast
    obtain ⟨rfl, rfl⟩ := Prod.mk.inj (Option.some.inj hp)
    obtain ⟨above, habove⟩ := List.getLast?_eq_some_iff.1 hlast
    rw [get?_eq_segments, habove, List.dropLast_concat] at hparent
    rwa [Path.get?, habove, Steps.get?_concat_key hparent] at hnone
  · cases hp

theorem renameInPlace?_alike (source : Path) {target : Path} (h : Reordered a b)
    (hnone : target.get? a = none) :
    Option.Rel Reordered (renameInPlace? source target a) (renameInPlace? source target b) := by
  unfold renameInPlace?
  split
  · rename_i parent old parent' new hsource htarget
    split
    · rename_i hparents
      subst hparents
      rcases optionRel_iff.1 (get?_alike parent h) with ⟨ha, hb⟩ | ⟨v, w, ha, hb, hvw⟩ <;>
        rw [ha, hb]
      · exact .none
      · cases hvw with
        | object hleft hright hfields =>
          have hnew := get?_splitKey? htarget hnone ha
          have hrenamed := (Alike.object hleft hright hfields).rename old hnew
          exact .some (Steps.replace_alike h hrenamed parent.steps)
        | _ => exact .none
    · exact .none
  · exact .none

theorem moveValue_alike {source target : Path} (hvw : Reordered v w) (h : Reordered a b)
    (hnone : target.get? a = none) :
    (moveValue source target v a).Alike Reordered (moveValue source target w b) := by
  simp only [moveValue]
  rcases optionRel_iff.1 (renameInPlace?_alike source h hnone) with
    ⟨ha, hb⟩ | ⟨x, y, ha, hb, hxy⟩ <;> rw [ha, hb]
  · have hwritten : (target.set a v).Alike Eq (target.set b w) :=
      Steps.set_alike (.some h) hvw target.steps
    apply written_alike hwritten
    · intro x y hx hy
      rw [hx, hy]
      exact .changed (without_alike source hwritten.value) _ _
    · intro r r' hr hr'
      rw [hr, hr']
      exact .failed hwritten.value _ _
  · exact .changed hxy _ _

theorem rename_alike (source target : Path) (h : Reordered a b) :
    (rename source target a).Alike Reordered (rename source target b) := by
  unfold rename
  rcases optionRel_iff.1 (get?_alike source h) with ⟨ha, hb⟩ | ⟨v, w, ha, hb, hvw⟩ <;> rw [ha, hb]
  · exact .warned h _ _
  dsimp only
  split
  · exact .unchanged h
  split
  · exact .failed h _ _
  rcases optionRel_iff.1 (get?_alike target h) with ⟨ha', hb'⟩ | ⟨x, y, ha', hb', hxy⟩ <;>
    rw [ha', hb']
  · exact moveValue_alike hvw h ha'
  · dsimp only
    rw [Elements.equal_eq hvw hxy]
    split
    · exact .changed (without_alike source h) _ _
    · exact .failed h _ _

theorem asNumber?_eq (h : Reordered v w) : v.asNumber? = w.asNumber? := by
  cases h with
  | number h => rw [h]
  | _ => rfl

theorem step_alike [Decimals] (verb : Keyword) (word : String) (p : Path) (amount : Number)
    (h : Reordered a b) :
    (step verb word p amount a).Alike Reordered (step verb word p amount b) := by
  have hcounter : (∃ v w, counter (p.get? a) = .error v ∧ counter (p.get? b) = .error w) ∨
      ∃ n, counter (p.get? a) = .ok n ∧ counter (p.get? b) = .ok n := by
    rcases optionRel_iff.1 (get?_alike p h) with ⟨ha, hb⟩ | ⟨v, w, ha, hb, hvw⟩ <;> rw [ha, hb]
    · exact .inr ⟨_, rfl, rfl⟩
    · simp only [counter]
      rw [asNumber?_eq hvw]
      cases w.asNumber? with
      | none => exact .inl ⟨_, _, rfl, rfl⟩
      | some n => exact .inr ⟨n, rfl, rfl⟩
  simp only [step]
  rcases hcounter with ⟨v, w, ha, hb⟩ | ⟨n, ha, hb⟩ <;> rw [ha, hb]
  · exact .failed h _ _
  · have hwritten : (p.set a (.number (n.stepBy amount))).Alike Eq
        (p.set b (.number (n.stepBy amount))) :=
      Steps.set_alike (.some h) (.number rfl) p.steps
    apply written_alike hwritten
    · intro x y hx hy
      dsimp only
      rw [hx, hy]
      exact .changed hwritten.value _ _
    · intro r r' hr hr'
      dsimp only
      rw [hr, hr']
      exact .failed hwritten.value _ _

/-! ### Collections -/

/-- What stands at a path, with `null` for nothing. -/
theorem getD_alike {x y : Option Value} (h : Option.Rel Reordered x y) :
    Reordered (x.getD .null) (y.getD .null) := by
  cases h with
  | none => exact .null
  | some h => exact h

theorem merge_alike (target : Path) (l : Literal) (deep : Bool) (h : Reordered a b) :
    (merge clock target l deep a).Alike Reordered (merge clock target l deep b) := by
  have hl := reordered_resolve clock l
  have hkeys := l.hasUniqueKeys_resolve clock
  have hfound := getD_alike (get?_alike target h)
  simp only [merge]
  generalize l.resolve clock = v at hl hkeys ⊢
  cases v with
  | object source =>
    dsimp only
    generalize (target.get? a).getD .null = x at hfound ⊢
    generalize (target.get? b).getD .null = y at hfound ⊢
    cases hfound with
    | @object existing existing' hleft hright hfields =>
      have hexisting : Reordered (.object existing) (.object existing') :=
        .object hleft hright hfields
      have hmerged : Reordered
          (.object (if deep then Merge.deep existing source else Merge.shallow existing source))
          (.object (if deep then Merge.deep existing' source
            else Merge.shallow existing' source)) := by
        cases deep with
        | true => exact Merge.deep_alike hkeys hexisting
        | false => exact Merge.shallow_alike hkeys hexisting
      dsimp only
      generalize (if deep then Merge.deep existing source
        else Merge.shallow existing source) = merged at hmerged ⊢
      generalize (if deep then Merge.deep existing' source
        else Merge.shallow existing' source) = merged' at hmerged ⊢
      have hafter := Steps.replace_alike h hmerged target.steps
      rw [Elements.equal_eq hexisting hmerged]
      split
      · exact .unchanged hafter
      · exact .changed hafter _ _
    | null =>
      have hwritten : (target.set a (.object source)).Alike Eq (target.set b (.object source)) :=
        Steps.set_alike (.some h) hl target.steps
      apply written_alike hwritten
      · intro x y hx hy
        dsimp only
        rw [hx, hy]
        exact .changed hwritten.value _ _
      · intro r r' hr hr'
        dsimp only
        rw [hr, hr']
        exact .failed hwritten.value _ _
    | _ => exact .failed h _ _
  | _ => exact .failed h _ _

theorem onArray_alike (target : Path) (filter : Option Condition) (verb : Verb)
    {as bs : List Value} (hitems : List.Forall₂ Reordered as bs) (h : Reordered a b) :
    (onArray clock target filter verb as a).Alike Reordered
      (onArray clock target filter verb bs b) :=
  (editElements_alike clock target filter verb hitems).lift fun _ _ hafter =>
    Steps.replace_alike h (.array hafter) target.steps

theorem editArray_alike (target : Path) (filter : Option Condition) (verb : Verb)
    (h : Reordered a b) :
    (editArray clock target filter verb a).Alike Reordered
      (editArray clock target filter verb b) := by
  have hget := get?_alike target h
  have hfound := getD_alike hget
  have hisNone : (target.get? a).isNone = (target.get? b).isNone := by
    rcases optionRel_iff.1 hget with ⟨ha, hb⟩ | ⟨v, w, ha, hb, -⟩ <;> rw [ha, hb]
    rfl
  simp only [editArray]
  rw [hisNone]
  generalize (target.get? a).getD .null = x at hfound ⊢
  generalize (target.get? b).getD .null = y at hfound ⊢
  cases hfound with
  | array hitems => exact onArray_alike target filter verb hitems h
  | null =>
    dsimp only
    split
    · have hwritten : (target.set a (.array [])).Alike Eq (target.set b (.array [])) :=
        Steps.set_alike (.some h) (.array .nil) target.steps
      apply written_alike hwritten
      · -- the array that was made is found on both sides
        intro x y hx hy
        rw [hx, hy]
        dsimp only
        rcases optionRel_iff.1 (get?_alike target hwritten.value) with
          ⟨ha, hb⟩ | ⟨v, w, ha, hb, hvw⟩ <;> rw [ha, hb]
        · exact .failed hwritten.value _ _
        · cases hvw with
          | array hitems => exact onArray_alike target filter verb hitems hwritten.value
          | _ => exact .failed hwritten.value _ _
      · intro r r' hr hr'
        rw [hr, hr']
        exact .failed hwritten.value _ _
    · split <;> exact .warned h _ _
  | _ => exact .failed h _ _

theorem collection_alike (target : Path) (filter : Option Condition) (verb : Verb)
    (h : Reordered a b) :
    (collection clock target filter verb a).Alike Reordered
      (collection clock target filter verb b) := by
  unfold collection
  split
  · exact .failed h _ _
  · split
    · exact merge_alike target _ _ h
    · exact editArray_alike target filter verb h

end Run

/-! ### Runs -/

/-- **An operation does the same to documents that differ in the order of keys.** -/
theorem Operation.apply_alike [Decimals] {a b : Value} (h : Reordered a b) (clock : Clock)
    (op : Operation) :
    (op.apply clock a).Alike Reordered (op.apply clock b) := by
  cases op with
  | set p l => exact Run.set_alike p l h
  | delete p => exact Run.delete_alike p h
  | rename source target => exact Run.rename_alike source target h
  | increment p amount => exact Run.step_alike _ _ p _ h
  | decrement p amount => exact Run.step_alike _ _ p _ h
  | collection target filter verb => exact Run.collection_alike target filter verb h

theorem Run.operations_alike [Decimals] {a b : Value} (h : Reordered a b) (clock : Clock)
    (ops : List Operation) :
    (operations clock ops a).Alike Reordered (operations clock ops b) := by
  induction ops generalizing a b with
  | nil => exact .unchanged h
  | cons op rest ih =>
    have hfirst := op.apply_alike h clock
    have hfailure := hfirst.failure
    simp only [operations]
    cases ha : (op.apply clock a).failure <;> cases hb : (op.apply clock b).failure <;>
      rw [ha, hb] at hfailure
    case some.some => exact hfirst
    case none.none =>
      have hrest := ih hfirst.after
      refine ⟨hrest.after, ?_, ?_, hrest.failure⟩
      · simp only [List.length_append, hfirst.changes, hrest.changes]
      · simp only [List.length_append, hfirst.warnings, hrest.warnings]
    all_goals cases hfailure

/-- **The order of keys means nothing**: documents that differ in it pass the same conditions,
and any action changes them alike, reports as much and fails on both or on neither.  Documents
that are equal pass the same conditions even where a zero has another sign. -/
theorem Action.order_of_keys [Decimals] {a b : Value} (clock : Clock) :
    (Reordered a b →
      (∀ c : Condition, c.holds clock a = c.holds clock b) ∧
      ∀ action : Action,
        (action.run clock a).success = (action.run clock b).success ∧
        (action.run clock a).modified = (action.run clock b).modified ∧
        (action.run clock a).changes.length = (action.run clock b).changes.length ∧
        Reordered (action.run clock a).newData (action.run clock b).newData) ∧
    (a.hasUniqueKeys = true → b.hasUniqueKeys = true → a.equal b = true →
      ∀ c : Condition, c.holds clock a = c.holds clock b) := by
  constructor
  · intro h
    refine ⟨fun c => c.holds_congr h.tied clock, fun action => ?_⟩
    have hrun := Run.operations_alike h clock action.operations
    have hfailure := hrun.failure
    refine ⟨?_, ?_, hrun.changes, hrun.after⟩
    · show (Run.operations clock action.operations a).failure.isNone =
        (Run.operations clock action.operations b).failure.isNone
      rw [← Option.not_isSome, ← Option.not_isSome, hfailure]
    · exact congrArg (!·) (Value.equal_congr hrun.after.tied h.tied)
  · intro ha hb h c
    exact c.holds_congr (Value.alike_of_equal ha hb h) clock

/-- Two ways to list the keys of a document and of an element in it, and two zeros. -/
theorem Action.order_of_keys_run :
    let v : Value := .object [("s", .array [.object [("p", .boolean true), ("q", .null)]]),
      ("t", .string "u")]
    let w : Value := .object [("t", .string "u"),
      ("s", .array [.object [("q", .null), ("p", .boolean true)]])]
    let zero : Value := .object [("n", .number .zero)]
    let negativeZero : Value := .object [("n", .number (-.zero))]
    let clock : Clock := ⟨2024, 1, 1, 0, 0, 0, 0⟩
    Reordered v w ∧
      Reordered (Action.run clock ⟨[.collection ⟨[.key "s"]⟩ (some (.truthy ⟨[.key "p"]⟩))
          (.update [(⟨[.key "q"]⟩, .now)])]⟩ v).newData
        (Action.run clock ⟨[.collection ⟨[.key "s"]⟩ (some (.truthy ⟨[.key "p"]⟩))
          (.update [(⟨[.key "q"]⟩, .now)])]⟩ w).newData ∧
      zero.equal negativeZero = true ∧
      ∀ c : Condition, c.holds clock zero = c.holds clock negativeZero := by
  intro v w zero negativeZero clock
  have hentries : Reordered (.object [("p", .boolean true), ("q", .null)])
      (.object [("q", .null), ("p", .boolean true)]) := by
    refine Value.Alike.object_iff_perm.2 ⟨by decide, _, .swap _ _ _, ?_⟩
    exact .cons ⟨rfl, .null⟩ (.cons ⟨rfl, .boolean true⟩ .nil)
  have hvw : Reordered v w := by
    refine Value.Alike.object_iff_perm.2 ⟨by decide, _, .swap _ _ _, ?_⟩
    exact .cons ⟨rfl, .string "u"⟩ (.cons ⟨rfl, .array (.cons hentries .nil)⟩ .nil)
  have hzeros : zero.equal negativeZero = true := by decide
  exact ⟨hvw, (((order_of_keys clock).1 hvw).2 _).2.2.2, hzeros,
    (order_of_keys clock).2 (by decide) (by decide) hzeros⟩

end MetadataRules
