/-
MetadataRules/Proofs/Run/Finite.lean

Numbers that stay finite.

A number of a document becomes infinite in two ways: a literal beyond the
largest number is read as an infinity and written, or a counter is stepped past
the largest number (`Action.exists_infinite`).  While neither happens
(`Run.StaysInRange`) and sums in decimal are finite (`Decimals.SumsFinite`), one
operation keeps the numbers finite (`Operation.isFinite_apply`), so a run does,
and so does any sequence of runs (`Action.isFinite_of_reachesInRange`).

What is finite has a text in JSON: only the other numbers are shown as `null`.
-/
import MetadataRules.Json.Basic
import MetadataRules.Proofs.Number.Fixed
import MetadataRules.Proofs.Run.Stable
import MetadataRules.Run.Action

namespace MetadataRules

/-- The JSON of a finite number is a number. -/
theorem Json.ofNumber_ne_null {n : Number} (h : n.isFinite = true) : Json.ofNumber n ≠ .null := by
  unfold Json.ofNumber
  split
  · nofun
  · rw [if_pos h]
    nofun

/-! ### Operations -/

namespace Operation

variable {op : Operation} {clock : Clock} {doc : Value}

/-- The operation writes no infinity, and the number it counts from and the amount it adds
have a sum within the range of numbers. -/
structure StaysInRange (clock : Clock) (doc : Value) (op : Operation) : Prop where
  written : ∀ l ∈ op.written, (l.resolve clock).isFinite = true
  sum : ∀ n amount, op.terms? doc = some (n, amount) → (n.add amount).isFinite = true

/-- **An operation that stays in range keeps the numbers of a document finite**, whether it
succeeds or not. -/
theorem isFinite_apply [Decimals] (hsums : Decimals.SumsFinite) (h : op.WellFormed)
    (hrange : op.StaysInRange clock doc) (hdoc : doc.isFinite = true) :
    (op.apply clock doc).after.isFinite = true := by
  refine op.stable_apply Value.stable_isFinite h hrange.written (fun n amount hterms => ?_) hdoc
  -- the sum is made in decimals where these fit
  exact Number.isFinite_stepBy hsums (hrange.sum n amount hterms)

end Operation

/-! ### Runs -/

namespace Run

variable [Decimals]

/-- Every operation of a run stays in range, up to the first failure. -/
def StaysInRange (clock : Clock) : List Operation → Value → Prop
  | [], _ => True
  | op :: rest, doc =>
    op.StaysInRange clock doc ∧
      ((op.apply clock doc).failure = none → StaysInRange clock rest (op.apply clock doc).after)

theorem isFinite_operations {ops : List Operation} {clock : Clock} {doc : Value}
    (hsums : Decimals.SumsFinite) (hops : ∀ op ∈ ops, op.WellFormed)
    (hrange : StaysInRange clock ops doc) (hdoc : doc.isFinite = true) :
    (operations clock ops doc).after.isFinite = true := by
  induction ops generalizing doc with
  | nil => exact hdoc
  | cons op rest ih =>
    obtain ⟨hop, hrest⟩ := List.forall_mem_cons.1 hops
    obtain ⟨hfirst, hbelow⟩ := hrange
    have hafter := op.isFinite_apply hsums hop hfirst hdoc
    rw [operations]
    dsimp only
    split
    · exact hafter
    · rename_i hnone
      exact ih hrest (hbelow hnone) hafter

end Run

namespace Action

/-- The documents that rules lead to when they run one after another and every run stays in
range. -/
inductive ReachesInRange [Decimals] (doc : Value) : Value → Prop
  | refl : ReachesInRange doc doc
  | run {mid : Value} {text : String} {action : Action} (h : ReachesInRange doc mid)
      (htext : Action.ofText text = .ok action) (clock : Clock)
      (hrange : Run.StaysInRange clock action.operations mid) :
      ReachesInRange doc (action.run clock mid).newData

/-- **Numbers stay finite while no infinity is written and no counter leaves the range.**
None of them is turned into `null` by JSON. -/
theorem isFinite_of_reachesInRange [Decimals] (hsums : Decimals.SumsFinite) {doc after : Value}
    (hdoc : doc.isFinite = true) (h : ReachesInRange doc after) :
    after.isFinite = true ∧ ∀ steps n, Steps.get? after steps = some (.number n) →
      Json.ofValue (.number n) ≠ .null := by
  have hafter : after.isFinite = true := by
    induction h with
    | refl => exact hdoc
    | run _ htext clock hrange ih =>
      exact Run.isFinite_operations hsums (wellFormed_of_ofText htext).operations hrange ih
  refine ⟨hafter, fun steps n hget => Json.ofNumber_ne_null ?_⟩
  have hnumber : (Value.number n).isFinite = true := Value.stable_isFinite.get? hafter hget
  simpa [Value.isFinite, Value.allNumbers, Value.all] using hnumber

/-- A number that is written and counted up in fixed decimals. -/
theorem isFinite_increment :
    let clock : Clock := ⟨2024, 1, 1, 0, 0, 0, 0⟩
    let a : Path := ⟨[.key "a"]⟩
    let write : Action := ⟨[.set a (.number .one)]⟩
    let count : Action := ⟨[.increment a (some .one)]⟩
    let doc : Value := .object []
    let mid := (write.run clock doc).newData
    let after := (count.run clock mid).newData
    after.isFinite = true ∧
      ∀ steps n, Steps.get? after steps = some (.number n) → Json.ofValue (.number n) ≠ .null := by
  intro clock a write count doc mid after
  have hwrite : Action.ofText "SET a 1" = .ok write := by decide +kernel
  have hcount : Action.ofText "INCREMENT a 1" = .ok count := by decide +kernel
  have hmid : ReachesInRange doc mid := by
    refine .run .refl hwrite clock ⟨⟨?_, nofun⟩, fun _ => trivial⟩
    intro l hl
    obtain rfl := List.mem_singleton.1 hl
    rfl
  have hafter : ReachesInRange doc after := by
    refine .run hmid hcount clock ⟨⟨nofun, ?_⟩, fun _ => trivial⟩
    intro n amount hterms
    obtain ⟨rfl, rfl⟩ := Prod.mk.inj (Option.some.inj hterms)
    decide +kernel
  exact isFinite_of_reachesInRange Fixed.sumsFinite rfl hafter

/-- A literal beyond the largest number is written as an infinity, and the largest number is
counted up to one; JSON has `null` for an infinity. -/
theorem exists_infinite :
    let clock : Clock := ⟨2024, 1, 1, 0, 0, 0, 0⟩
    let a : Path := ⟨[.key "a"]⟩
    let largest : Number := .ofMagnitude false (Number.infinityMagnitude - 1)
    let write : Action := ⟨[.set a (.number (.infinity false))]⟩
    let count : Action := ⟨[.increment a (some largest)]⟩
    let empty : Value := .object []
    let full : Value := .object [("a", .number largest)]
    empty.isFinite = true ∧ full.isFinite = true ∧
      Action.ofText "SET a 1e999" = .ok write ∧
      (write.run clock empty).newData.isFinite = false ∧
      Action.ofText "INCREMENT a 1.7976931348623157e308" = .ok count ∧
      (count.run clock full).newData.isFinite = false ∧
      Json.ofValue (.number (.infinity false)) = .null := by
  intro clock a largest write count empty full
  refine ⟨rfl, ?_, ?_, ?_, ?_, ?_, rfl⟩ <;> decide +kernel

end Action

end MetadataRules
