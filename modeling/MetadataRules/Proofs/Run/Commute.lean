/-
MetadataRules/Proofs/Run/Commute.lean

Edits of single fields in either order.

A write, a removal and a step of a counter look at one place only: at what it
holds, and at whether a write fits there (`Path.SameIn`).  Two documents that
agree in this are the same to the edit.  It is refused on both, or leaves both
alone, or gives its place the same new content (`Operation.apply_same`).

Two edits whose paths part at a key do not disturb each other in this, whatever
objects either of them makes on its way, so each does after the other what it
does without it (`Operation.sameAt_after`).  Their order matters for the order
of keys and of the lines that are reported, and for nothing else
(`Action.run_comm`).
-/
import MetadataRules.Number.Fixed
import MetadataRules.Proofs.Alike.Operation
import MetadataRules.Proofs.Path.Assign

namespace MetadataRules

open Value (Reordered)

/-- The field of an operation that edits one field. -/
def Operation.field? : Operation → Option Path
  | set p _ => some p
  | delete p => some p
  | increment p _ => some p
  | decrement p _ => some p
  | _ => none

/-! ### One place of a document -/

namespace Path

/-- A document after its place at a path was given another content. -/
structure Gives (p : Path) (new : Option Value) (doc after : Value) : Prop where
  fits : Steps.Fits (some doc) p.steps
  assign : Steps.assign (some doc) p.steps new = some after

/-- Two documents that are the same to an edit at a path. -/
structure SameIn (p : Path) (doc doc' : Value) : Prop where
  get? : p.get? doc = p.get? doc'
  fits : Steps.Fits (some doc) p.steps ↔ Steps.Fits (some doc') p.steps

variable {p q : Path} {doc doc' after v : Value} {new : Option Value}

theorem SameIn.refl (p : Path) (doc : Value) : p.SameIn doc doc := ⟨rfl, Iff.rfl⟩

/-- A change is not seen by an edit at a diverging path. -/
theorem Gives.sameIn (h : q.Gives new doc after) (hp : .current ∉ p.steps)
    (hdiverges : p.Diverges q) : p.SameIn doc after := by
  have hget := Steps.get?_assign new hp hdiverges h.fits
  have hfits := Steps.fits_assign_iff new hdiverges h.fits
  rw [h.assign] at hget hfits
  exact ⟨hget.symm, hfits.symm⟩

/-- An accepted write gives its place a value and answers with the one before; a refused one
leaves the document. -/
theorem set_cases (hp : .current ∉ p.steps) (doc v : Value) :
    (∃ after, p.set doc v = ⟨after, .ok (p.get? doc)⟩ ∧ p.Gives (some v) doc after) ∨
      ¬ Steps.Fits (some doc) p.steps ∧ ∃ r, p.set doc v = ⟨doc, .error r⟩ := by
  by_cases hfits : Steps.Fits (some doc) p.steps
  · have hanswer := Steps.answer_set (v := v) hp hfits
    have hassign := Steps.assign_some (v := v) hfits
    exact .inl ⟨(p.set doc v).value, congrArg (Written.mk _) hanswer, hfits, hassign⟩
  · have hok : (p.set doc v).answer.isOk ≠ true := mt Steps.isOk_set_iff.1 hfits
    rcases hanswer : (p.set doc v).answer with r | x
    · have hvalue := value_set_of_error hp hanswer
      exact .inr ⟨hfits, r, by rw [← hanswer]; exact congrArg (Written.mk · _) hvalue⟩
    · rw [hanswer] at hok
      exact absurd rfl hok

/-- A write is accepted or refused on both of two documents that are the same to it. -/
theorem SameIn.set_cases (h : p.SameIn doc doc') (hp : .current ∉ p.steps) (v : Value) :
    (∃ after after', p.set doc v = ⟨after, .ok (p.get? doc)⟩ ∧
        p.set doc' v = ⟨after', .ok (p.get? doc)⟩ ∧
        p.Gives (some v) doc after ∧ p.Gives (some v) doc' after') ∨
      ∃ r r', p.set doc v = ⟨doc, .error r⟩ ∧ p.set doc' v = ⟨doc', .error r'⟩ := by
  rcases Path.set_cases hp doc v with ⟨after, hset, hgives⟩ | ⟨hfits, r, hset⟩ <;>
    rcases Path.set_cases hp doc' v with ⟨after', hset', hgives'⟩ | ⟨hfits', r', hset'⟩
  · exact .inl ⟨after, after', hset, h.get? ▸ hset', hgives, hgives'⟩
  · exact absurd (h.fits.1 hgives.fits) hfits'
  · exact absurd (h.fits.2 hgives'.fits) hfits
  · exact .inr ⟨r, r', hset, hset'⟩

/-- A removal is possible in both or in neither, and removes the same. -/
theorem SameIn.erase?_cases (h : p.SameIn doc doc') (hp : .current ∉ p.steps)
    (hne : p.steps ≠ []) :
    (∃ old after after', p.erase? doc = some (old, after) ∧ p.erase? doc' = some (old, after') ∧
        p.Gives none doc after ∧ p.Gives none doc' after') ∨
      p.erase? doc = none ∧ p.erase? doc' = none := by
  cases hget : p.get? doc with
  | none =>
    exact .inr ⟨Steps.erase?_eq_none hget, Steps.erase?_eq_none (h.get?.symm.trans hget)⟩
  | some old =>
    obtain ⟨after, herase⟩ := Steps.exists_erase? hne hp hget
    obtain ⟨after', herase'⟩ := Steps.exists_erase? hne hp (h.get?.symm.trans hget)
    obtain ⟨hfits, hassign⟩ := Steps.assign_none hp herase
    obtain ⟨hfits', hassign'⟩ := Steps.assign_none hp herase'
    exact .inl ⟨old, after, after', herase, herase', ⟨hfits, hassign⟩, ⟨hfits', hassign'⟩⟩

/-- Diverging changes in either order. -/
theorem Gives.comm {x y : Option Value} {a a' b b' : Value} (hdiverges : p.Diverges q)
    (ha : p.Gives x doc a) (ha' : q.Gives y a a') (hb : q.Gives y doc b) (hb' : p.Gives x b b')
    (hdoc : doc.hasUniqueKeys = true) (hx : ∀ v ∈ x, v.hasUniqueKeys = true)
    (hy : ∀ v ∈ y, v.hasUniqueKeys = true) : Reordered a' b' := by
  have hold : ∀ v ∈ some doc, v.hasUniqueKeys = true := by
    rintro v ⟨⟩
    exact hdoc
  have hcomm := Steps.assign_comm hdiverges ha.fits hb.fits hold hx hy
  rw [ha.assign, hb.assign, ha'.assign, hb'.assign] at hcomm
  cases hcomm with
  | some h => exact h

/-- A document after a change has no key twice if the new content has none. -/
theorem Gives.hasUniqueKeys (h : p.Gives new doc after) (hdoc : doc.hasUniqueKeys = true)
    (hnew : ∀ v ∈ new, v.hasUniqueKeys = true) : after.hasUniqueKeys = true := by
  have hold : ∀ v ∈ some doc, v.hasUniqueKeys = true := by
    rintro v ⟨⟩
    exact hdoc
  exact Value.stable_hasUniqueKeys.assign h.fits hold hnew after h.assign

end Path

/-! ### One edit on two documents -/

/-- An edit at a path comes to the same on two documents: both keep what they hold, or both
are given the same content there. -/
structure Effect.SameAt (p : Path) (doc doc' : Value) (e e' : Effect Value) : Prop where
  failure : e.failure.isSome = e'.failure.isSome
  changes : e.changes = e'.changes
  warnings : e.warnings = e'.warnings
  after : (e.after = doc ∧ e'.after = doc') ∨
    ∃ new : Option Value, (∀ v ∈ new, v.hasUniqueKeys = true) ∧
      p.Gives new doc e.after ∧ p.Gives new doc' e'.after

namespace Effect.SameAt

variable {p : Path} {doc doc' after after' : Value} {new : Option Value}

theorem unchanged : SameAt p doc doc' (.unchanged doc) (.unchanged doc') :=
  ⟨rfl, rfl, rfl, .inl ⟨rfl, rfl⟩⟩

theorem warned (line : String) : SameAt p doc doc' (.warned doc line) (.warned doc' line) :=
  ⟨rfl, rfl, rfl, .inl ⟨rfl, rfl⟩⟩

theorem failed (failure failure' : Failure) :
    SameAt p doc doc' (.failed doc failure) (.failed doc' failure') :=
  ⟨rfl, rfl, rfl, .inl ⟨rfl, rfl⟩⟩

theorem changed (hnew : ∀ v ∈ new, v.hasUniqueKeys = true) (h : p.Gives new doc after)
    (h' : p.Gives new doc' after') (line : String) :
    SameAt p doc doc' (.changed after line) (.changed after' line) :=
  ⟨rfl, rfl, rfl, .inr ⟨new, hnew, h, h'⟩⟩

end Effect.SameAt

namespace Run

variable {p : Path} {doc doc' : Value} {clock : Clock}

theorem set_same (hp : .current ∉ p.steps) (l : Literal) (h : p.SameIn doc doc') :
    Effect.SameAt p doc doc' (set clock p l doc) (set clock p l doc') := by
  simp only [set, ← h.get?]
  split
  · exact .unchanged
  · rcases h.set_cases hp (l.resolve clock) with
      ⟨after, after', hset, hset', hgives, hgives'⟩ | ⟨r, r', hset, hset'⟩
    · have hnew : ∀ v ∈ some (l.resolve clock), v.hasUniqueKeys = true := by
        rintro v ⟨⟩
        exact l.hasUniqueKeys_resolve clock
      rw [hset, hset']
      cases p.get? doc with
      | none => exact .changed hnew hgives hgives' _
      | some old => exact .changed hnew hgives hgives' _
    · rw [hset, hset']
      exact .failed _ _

theorem delete_same (hp : .current ∉ p.steps) (hne : p.steps ≠ []) (h : p.SameIn doc doc') :
    Effect.SameAt p doc doc' (delete p doc) (delete p doc') := by
  unfold delete
  rcases h.erase?_cases hp hne with
    ⟨old, after, after', herase, herase', hgives, hgives'⟩ | ⟨herase, herase'⟩
  · rw [herase, herase']
    exact .changed (by simp) hgives hgives' _
  · rw [herase, herase']
    exact .warned _

theorem step_same [Decimals] (verb : Keyword) (word : String) (hp : .current ∉ p.steps)
    (amount : Number) (h : p.SameIn doc doc') :
    Effect.SameAt p doc doc' (step verb word p amount doc) (step verb word p amount doc') := by
  simp only [step, ← h.get?]
  split
  · exact .failed _ _
  · rename_i n hn
    rcases h.set_cases hp (.number (n.stepBy amount)) with
      ⟨after, after', hset, hset', hgives, hgives'⟩ | ⟨r, r', hset, hset'⟩
    · have hnew : ∀ v ∈ some (Value.number (n.stepBy amount)), v.hasUniqueKeys = true := by
        rintro v ⟨⟩
        rfl
      rw [hset, hset']
      exact .changed hnew hgives hgives' _
    · rw [hset, hset']
      exact .failed _ _

end Run

namespace Operation

variable [Decimals] {op op₁ op₂ : Operation} {p q : Path} {doc doc' : Value} {clock : Clock}

/-- **An edit of one field does the same on documents that are the same to it.** -/
theorem apply_same (clock : Clock) (hfield : op.field? = some p) (hp : .current ∉ p.steps)
    (hne : p.steps ≠ []) (h : p.SameIn doc doc') :
    Effect.SameAt p doc doc' (op.apply clock doc) (op.apply clock doc') := by
  -- a rename and a collection are no edits of one field
  cases op <;> cases hfield
  case set l => exact Run.set_same hp l h
  case delete => exact Run.delete_same hp hne h
  case increment amount => exact Run.step_same _ _ hp _ h
  case decrement amount => exact Run.step_same _ _ hp _ h

/-- An edit of one field is the same before and after another one at a diverging path. -/
theorem sameAt_after (clock : Clock) (doc : Value) (hop₁ : op₁.field? = some p)
    (hop₂ : op₂.field? = some q) (hp : .current ∉ p.steps) (hq : .current ∉ q.steps)
    (hdiverges : p.Diverges q) :
    Effect.SameAt p doc (op₂.apply clock doc).after (op₁.apply clock doc)
      (op₁.apply clock (op₂.apply clock doc).after) := by
  refine apply_same clock hop₁ hp (Steps.Diverge.ne_nil_left hdiverges) ?_
  have hsame := apply_same clock hop₂ hq
    (Steps.Diverge.symm hdiverges).ne_nil_left (Path.SameIn.refl q doc)
  rcases hsame.after with ⟨hafter, -⟩ | ⟨new, -, hgives, -⟩
  · rw [hafter]
    exact .refl p doc
  · exact hgives.sameIn hp hdiverges

/-- Two edits at diverging paths leave the same documents in either order. -/
theorem apply_comm (hop₁ : op₁.field? = some p) (hop₂ : op₂.field? = some q)
    (hp : .current ∉ p.steps) (hq : .current ∉ q.steps) (hdiverges : p.Diverges q)
    (hdoc : doc.hasUniqueKeys = true) :
    Reordered (op₂.apply clock (op₁.apply clock doc).after).after
      (op₁.apply clock (op₂.apply clock doc).after).after := by
  have h₁ := sameAt_after clock doc hop₁ hop₂ hp hq hdiverges
  have h₂ := sameAt_after clock doc hop₂ hop₁ hq hp (Steps.Diverge.symm hdiverges)
  have hself : ∀ {v : Value}, v.hasUniqueKeys = true → Reordered v v := .refl fun _ => rfl
  -- an edit that leaves the document leaves it after the other edit as well, so only two
  -- changes need to be exchanged
  rcases h₁.after with ⟨hafter₁, hafter₁'⟩ | ⟨x, hx, hgives₁, hgives₁'⟩ <;>
    rcases h₂.after with ⟨hafter₂, hafter₂'⟩ | ⟨y, hy, hgives₂, hgives₂'⟩
  · rw [hafter₁', hafter₂', hafter₁, hafter₂]
    exact hself hdoc
  · rw [hafter₁', hafter₁]
    exact hself (hgives₂.hasUniqueKeys hdoc hy)
  · rw [hafter₂', hafter₂]
    exact hself (hgives₁.hasUniqueKeys hdoc hx)
  · exact hgives₁.comm hdiverges hgives₂' hgives₂ hgives₁' hdoc hx hy

end Operation

/-! ### Runs of two -/

/-- A run of two operations of which the first does not fail. -/
theorem Run.operations_pair [Decimals] {clock : Clock} {a b : Operation} {doc : Value}
    (h : (a.apply clock doc).failure = none) :
    operations clock [a, b] doc =
      ⟨(b.apply clock (a.apply clock doc).after).after,
        (a.apply clock doc).changes ++ (b.apply clock (a.apply clock doc).after).changes,
        (a.apply clock doc).warnings ++ (b.apply clock (a.apply clock doc).after).warnings,
        (b.apply clock (a.apply clock doc).after).failure⟩ := by
  rw [operations, h]
  dsimp only
  cases hb : (b.apply clock (a.apply clock doc).after).failure <;>
    simp [operations, hb, Effect.unchanged]

/-- A run of two edits at diverging paths fails where one of the edits fails by itself. -/
theorem Run.failure_operations_pair [Decimals] {op₁ op₂ : Operation} {p q : Path} (clock : Clock)
    (doc : Value) (hop₁ : op₁.field? = some p) (hop₂ : op₂.field? = some q)
    (hp : .current ∉ p.steps) (hq : .current ∉ q.steps) (hdiverges : p.Diverges q) :
    (operations clock [op₁, op₂] doc).failure.isSome =
      ((op₁.apply clock doc).failure.isSome || (op₂.apply clock doc).failure.isSome) := by
  have hsecond := Operation.sameAt_after clock doc hop₂ hop₁ hq hp (Steps.Diverge.symm hdiverges)
  cases h : (op₁.apply clock doc).failure with
  | none => rw [operations_pair h, hsecond.failure, Option.isSome_none, Bool.false_or]
  | some f => simp [operations, h]

/-- **Edits of single fields commute** when their paths are made of keys and neither is the
beginning of the other: both orders fail or neither, and when they succeed they leave the same
up to the order of keys, and report the same changes and warnings up to their order.  (An
outcome has its warnings on one line.) -/
theorem Action.run_comm [Decimals] {op₁ op₂ : Operation} {p q : Path} (hop₁ : op₁.field? = some p)
    (hop₂ : op₂.field? = some q) (hp : ∀ s ∈ p.steps, ∃ key, s = .key key)
    (hq : ∀ s ∈ q.steps, ∃ key, s = .key key) (hpq : ¬ p.steps <+: q.steps)
    (hqp : ¬ q.steps <+: p.steps) (clock : Clock) {doc : Value}
    (hdoc : doc.hasUniqueKeys = true) :
    let there := Action.run clock ⟨[op₁, op₂]⟩ doc
    let back := Action.run clock ⟨[op₂, op₁]⟩ doc
    there.success = back.success ∧
      (there.success = true →
        Reordered there.newData back.newData ∧ there.changes.Perm back.changes ∧
          (Run.operations clock [op₁, op₂] doc).warnings.Perm
            (Run.operations clock [op₂, op₁] doc).warnings) := by
  have hdiverges : p.Diverges q := Steps.diverge_of_keys hp hq hpq hqp
  have hdiverges' : q.Diverges p := Steps.Diverge.symm hdiverges
  have hpc := Steps.current_notMem_of_keys hp
  have hqc := Steps.current_notMem_of_keys hq
  intro there back
  -- either order fails where one of the edits fails by itself
  have hthere := Run.failure_operations_pair clock doc hop₁ hop₂ hpc hqc hdiverges
  have hback := Run.failure_operations_pair clock doc hop₂ hop₁ hqc hpc hdiverges'
  constructor
  · show (Run.operations clock [op₁, op₂] doc).failure.isNone =
      (Run.operations clock [op₂, op₁] doc).failure.isNone
    rw [← Option.not_isSome, ← Option.not_isSome, hthere, hback, Bool.or_comm]
  · intro hsuccess
    have hnone : (Run.operations clock [op₁, op₂] doc).failure.isSome = false := by
      rw [← Option.not_isNone]
      exact congrArg (!·) hsuccess
    rw [hthere, Bool.or_eq_false_iff, Option.isSome_eq_false_iff, Option.isSome_eq_false_iff,
      Option.isNone_iff_eq_none, Option.isNone_iff_eq_none] at hnone
    obtain ⟨hnone₁, hnone₂⟩ := hnone
    -- and each edit reports after the other what it reports by itself
    have h₁ := Operation.sameAt_after clock doc hop₁ hop₂ hpc hqc hdiverges
    have h₂ := Operation.sameAt_after clock doc hop₂ hop₁ hqc hpc hdiverges'
    simp only [there, back, Action.run, Run.operations_pair hnone₁, Run.operations_pair hnone₂,
      ← h₁.changes, ← h₁.warnings, ← h₂.changes, ← h₂.warnings]
    refine ⟨?_, List.perm_append_comm, List.perm_append_comm⟩
    exact Operation.apply_comm hop₁ hop₂ hpc hqc hdiverges hdoc

/-- Two edits that both make an object of the `null` on their way. -/
theorem Action.run_comm_of_null :
    let clock : Clock := ⟨2024, 1, 1, 0, 0, 0, 0⟩
    let doc : Value := .object [("a", .null)]
    let write : Operation := .set ⟨[.key "a", .key "b", .key "c"]⟩ .today
    let count : Operation := .decrement ⟨[.current, .key "a", .key "n"]⟩ none
    (Action.run clock ⟨[write, count]⟩ doc).success = true ∧
      Reordered (Action.run clock ⟨[write, count]⟩ doc).newData
        (Action.run clock ⟨[count, write]⟩ doc).newData ∧
      (Action.run clock ⟨[write, count]⟩ doc).newData.compact ≠
        (Action.run clock ⟨[count, write]⟩ doc).newData.compact := by
  intro clock doc write count
  have hsuccess : (Action.run clock ⟨[write, count]⟩ doc).success = true := by decide +kernel
  have hkeys : ∀ names : List String, ∀ s ∈ names.map Segment.key, ∃ key, s = .key key := by
    simp
  have hwrite : write.field? = some ⟨[.key "a", .key "b", .key "c"]⟩ := rfl
  have hcount : count.field? = some ⟨[.current, .key "a", .key "n"]⟩ := rfl
  have hdoc : doc.hasUniqueKeys = true := by decide
  have hcomm := run_comm hwrite hcount (hkeys ["a", "b", "c"]) (hkeys ["a", "n"]) (by decide)
    (by decide) clock hdoc
  exact ⟨hsuccess, (hcomm.2 hsuccess).1, by decide +kernel⟩

end MetadataRules
