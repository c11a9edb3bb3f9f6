/-
MetadataRules/Proofs/Run/Update.lean

Writes to matching elements, element by element.

A filter is asked about every element as it stands before the writes, and what
is written to an element depends on that element alone.  `Assigns` and `Refuses`
say what becomes of one element, without a word about the array around it; every
element goes one of the two ways (`assigns_or_refuses`) and none goes both
(`Assigns.not_refuses`).

The writes go through the elements from the front.  `UpdatedTo` says how far
they have come, and `rewrittenLines` what they have told so far.  One more
element in front makes one step more of either (`UpdatedTo.cons`,
`rewrittenLines_cons`), so both follow from each other down the array
(`updateFrom_ends`): the writes have come to the end, or to the first element
that refuses one.
-/
import MetadataRules.Number.Fixed
import MetadataRules.Proofs.Run.Settled
import MetadataRules.Proofs.Run.Silence

namespace MetadataRules

namespace Run

/-! ### One element -/

/-- Fields of a value are written one after another, and none is refused. -/
inductive Assigns : List (Path × Value) → Value → Value → Prop
  | nil (v : Value) : Assigns [] v v
  | cons {p : Path} {v new w : Value} {rest : List (Path × Value)} {old : Option Value}
      (h : (p.set v new).answer = .ok old) (hrest : Assigns rest (p.set v new).value w) :
      Assigns ((p, new) :: rest) v w

/-- Fields of a value are written one after another, up to a path that is refused. -/
inductive Refuses : List (Path × Value) → Value → Path → Refusal → Prop
  | here {p : Path} {v new : Value} {rest : List (Path × Value)} {r : Refusal}
      (h : (p.set v new).answer = .error r) : Refuses ((p, new) :: rest) v p r
  | there {p q : Path} {v new : Value} {rest : List (Path × Value)} {old : Option Value}
      {r : Refusal} (h : (p.set v new).answer = .ok old)
      (hrest : Refuses rest (p.set v new).value q r) : Refuses ((p, new) :: rest) v q r

variable {test : Value → Bool} {values : List (Path × Value)} {old new : Value}
  {items after : List Value} {n index : Nat}

/-- Writing fields of a value ends in one of the two ways. -/
theorem assigns_or_refuses (values : List (Path × Value)) (v : Value) :
    ((assignAll v values).refused = none ∧ Assigns values v (assignAll v values).value) ∨
      ∃ p r, (assignAll v values).refused = some (p, r) ∧ Refuses values v p r := by
  induction values generalizing v with
  | nil => exact .inl ⟨rfl, .nil v⟩
  | cons a rest ih =>
    obtain ⟨p, new⟩ := a
    simp only [assignAll]
    rcases hanswer : (p.set v new).answer with r | old
    · exact .inr ⟨p, r, rfl, .here hanswer⟩
    · rcases ih (p.set v new).value with ⟨hnone, hrest⟩ | ⟨q, r, hsome, hrest⟩
      · exact .inl ⟨hnone, .cons hanswer hrest⟩
      · exact .inr ⟨q, r, hsome, .there hanswer hrest⟩

theorem Assigns.not_refuses {v w : Value} (h : Assigns values v w) {p : Path} {r : Refusal} :
    ¬Refuses values v p r := by
  induction h with
  | nil => rintro ⟨⟩
  | cons h _ ih =>
    intro hrefuses
    cases hrefuses with
    | here herror =>
      rw [h] at herror
      cases herror
    | there _ hrest => exact ih hrest

/-! ### How far the writes have come -/

/-- The elements after the writes have gone through the first `upTo` of them: those that
pass the test are written, and all others are as they were. -/
structure UpdatedTo (test : Value → Bool) (values : List (Path × Value)) (upTo : Nat)
    (items after : List Value) : Prop where
  length : after.length = items.length
  written : ∀ i < upTo, ∀ old, items[i]? = some old → test old = true →
    ∃ new, after[i]? = some new ∧ Assigns values old new
  kept : ∀ i old, items[i]? = some old → (test old = true → upTo < i) → after[i]? = some old

theorem UpdatedTo.nil : UpdatedTo test values 0 [] [] where
  length := rfl
  written := nofun
  kept := nofun

/-- The writes have gone through an element in front as well. -/
theorem UpdatedTo.cons (hwritten : test old = true → Assigns values old new)
    (hkept : test old = false → new = old) (h : UpdatedTo test values n items after) :
    UpdatedTo test values (n + 1) (old :: items) (new :: after) where
  length := congrArg (· + 1) h.length
  written
    | 0, _, v, hv, htest => by
      obtain rfl : old = v := Option.some.inj hv
      exact ⟨new, rfl, hwritten htest⟩
    | i + 1, hi, v, hv, htest => h.written i (Nat.lt_of_succ_lt_succ hi) v hv htest
  kept
    | 0, v, hv, hlater => by
      obtain rfl : old = v := Option.some.inj hv
      have htest : test old = false := Bool.eq_false_iff.2 fun h => Nat.not_lt_zero _ (hlater h)
      rw [hkept htest]
      rfl
    | i + 1, v, hv, hlater => h.kept i v hv fun htest => Nat.lt_of_succ_lt_succ (hlater htest)

/-- Of an element that refuses a write nothing is said, and those behind it are untouched. -/
theorem UpdatedTo.refused (htest : test old = true) (new : Value) :
    UpdatedTo test values 0 (old :: items) (new :: items) where
  length := rfl
  written := nofun
  kept
    | 0, v, hv, hlater => by
      obtain rfl : old = v := Option.some.inj hv
      exact absurd (hlater htest) (Nat.lt_irrefl 0)
    | _ + 1, _, hv, _ => hv

/-! ### What the writes tell -/

/-- The element at a position passes the test and does not equal the one that stands there
after the writes. -/
def isRewritten (test : Value → Bool) (items after : List Value) (i : Nat) : Bool :=
  match items[i]?, after[i]? with
  | some old, some new => test old && !new.equal old
  | _, _ => false

/-- A line for each rewritten one of the first `upTo` elements, in order; `index` is the
position of the first element. -/
def rewrittenLines (target : Path) (test : Value → Bool) (values : List (Path × Value))
    (index upTo : Nat) (items after : List Value) : List String :=
  ((List.range upTo).filter (isRewritten test items after)).map fun i =>
    updatedLine target (index + i) values

theorem rewrittenLines_cons (target : Path) :
    rewrittenLines target test values index (n + 1) (old :: items) (new :: after) =
      (if test old && !new.equal old then [updatedLine target index values] else []) ++
        rewrittenLines target test values (index + 1) n items after := by
  have hbelow : ∀ i, updatedLine target (index + (i + 1)) values =
      updatedLine target (index + 1 + i) values := by
    intro i
    rw [Nat.add_assoc, Nat.add_comm 1 i]
  -- the position in front, and the others moved on by one
  rw [rewrittenLines, List.range_succ_eq_map, List.filter_cons, List.filter_map]
  show (List.map _ (if (test old && !new.equal old) = true then _ else _)) = _
  split
  · rw [List.map_cons, List.map_map, List.singleton_append]
    exact congrArg (_ :: ·) (List.map_congr_left fun i _ => hbelow i)
  · rw [List.map_map, List.nil_append]
    exact List.map_congr_left fun i _ => hbelow i

/-! ### All elements -/

/-- How writes to matching elements end, where `index` is the position of the first element. -/
inductive UpdateEnds (target : Path) (test : Value → Bool) (values : List (Path × Value))
    (index : Nat) (items : List Value) (effect : Effect (List Value)) : Prop
  /-- The writes went through all elements. -/
  | done (hfailure : effect.failure = none)
      (hafter : UpdatedTo test values items.length items effect.after)
      (hchanges : effect.changes =
        rewrittenLines target test values index items.length items effect.after)
  /-- The element at position `i`, behind the first, is the first that refuses a write. -/
  | refused {i : Nat} {old : Value} {p : Path} {r : Refusal} (hold : items[i]? = some old)
      (htest : test old = true) (hrefuses : Refuses values old p r)
      (hfailure : effect.failure = some (.elementWrite target (index + i) p r))
      (hafter : UpdatedTo test values i items effect.after)
      (hchanges : effect.changes = rewrittenLines target test values index i items effect.after)

/-- An element in front that the writes go through, whether it passes the test or not. -/
theorem UpdateEnds.cons {target : Path} {effect : Effect (List Value)}
    (new : Value) (below : Effect (List Value))
    (h : UpdateEnds target test values (index + 1) items below)
    (hwritten : test old = true → Assigns values old new)
    (hkept : test old = false → new = old) (hfailure : effect.failure = below.failure)
    (hafter : effect.after = new :: below.after)
    (hchanges : effect.changes =
      (if test old && !new.equal old then [updatedLine target index values] else []) ++
        below.changes) :
    UpdateEnds target test values index (old :: items) effect := by
  cases h with
  | done hfailure' hafter' hchanges' =>
    refine .done (hfailure.trans hfailure') ?_ ?_
    · rw [hafter]
      exact hafter'.cons hwritten hkept
    · rw [hafter, List.length_cons, rewrittenLines_cons, ← hchanges']
      exact hchanges
  | @refused i v p r hold htest hrefuses hfailure' hafter' hchanges' =>
    have hplace : index + 1 + i = index + (i + 1) := by omega
    rw [hplace] at hfailure'
    refine .refused (i := i + 1) hold htest hrefuses (hfailure.trans hfailure') ?_ ?_
    · rw [hafter]
      exact hafter'.cons hwritten hkept
    · rw [hafter, rewrittenLines_cons, ← hchanges']
      exact hchanges

/-- **Writes to matching elements go through all of them or stop at the first that refuses.** -/
theorem updateFrom_ends (target : Path) (test : Value → Bool) (values : List (Path × Value))
    (index : Nat) (items : List Value) :
    UpdateEnds target test values index items (updateFrom target test values index items) := by
  induction items generalizing index with
  | nil => exact .done rfl .nil rfl
  | cons old rest ih =>
    rcases htest : test old with - | -
    · rw [updateFrom_of_not_test htest]
      refine .cons old _ (ih (index + 1)) ?_ (fun _ => rfl) rfl rfl ?_
      · intro h
        rw [htest] at h
        cases h
      · rw [htest]
        rfl
    · rcases assigns_or_refuses values old with ⟨hnone, hassigns⟩ | ⟨p, r, hsome, hrefuses⟩
      · obtain ⟨hafter, hchanges⟩ : (updateFrom target test values index (old :: rest)).after =
            (assignAll old values).value :: (updateFrom target test values (index + 1) rest).after ∧
            _ := updateFrom_of_written htest hnone
        have hfailure : (updateFrom target test values index (old :: rest)).failure =
            (updateFrom target test values (index + 1) rest).failure := by
          rw [updateFrom, if_pos htest]
          dsimp only
          rw [hnone]
        refine .cons _ _ (ih (index + 1)) (fun _ => hassigns) ?_ hfailure hafter ?_
        · intro h
          rw [htest] at h
          cases h
        · rw [hchanges, htest]
          cases (assignAll old values).value.equal old <;> rfl
      · rw [updateFrom_of_refused htest hsome]
        exact .refused (i := 0) rfl htest hrefuses rfl (.refused htest _) rfl

/-- Where no element matches, there is nothing to write and nothing to tell. -/
theorem update_ends (target : Path) (test : Value → Bool) (values : List (Path × Value))
    (items : List Value) :
    UpdateEnds target test values 0 items (update target test values items) := by
  unfold update
  split
  · exact updateFrom_ends target test values 0 items
  · rename_i hany
    have hnone : ∀ (i : Nat) (old : Value), items[i]? = some old → test old = false := by
      intro i old hold
      rw [Bool.eq_false_iff]
      intro htest
      exact hany (List.any_eq_true.2 ⟨old, List.mem_of_getElem? hold, htest⟩)
    refine .done rfl ⟨rfl, ?_, fun i old hold _ => hold⟩ ?_
    · intro i _ old hold htest
      rw [hnone i old hold] at htest
      cases htest
    · have hfilter : (List.range items.length).filter (isRewritten test items items) = [] := by
        rw [List.filter_eq_nil_iff]
        intro i _ hrewritten
        unfold isRewritten at hrewritten
        split at hrewritten
        · rename_i old new hold hnew
          rw [hnone i old hold] at hrewritten
          cases hrewritten
        · cases hrewritten
      show [] = List.map _ ((List.range items.length).filter (isRewritten test items items))
      rw [hfilter]
      rfl

end Run

/-! ### Rules -/

namespace Action

/-- The action that writes fields of the elements of a collection that pass a filter. -/
def update (target : Path) (filter : Condition) (assignments : List (Path × Literal)) : Action :=
  ⟨[.collection target (some filter) (.update assignments)]⟩

open Run in
/-- **A filtered update works element by element.**  The filter selects elements of the array as
it was before the update.

* The array is edited and nothing else in the document is.
* The update succeeds exactly where every selected element takes all its writes.
* Where it succeeds, the selected elements are what the writes make of each of them alone, the
  others are as they were, and there is a line for each selected element that no longer equals
  itself, in order.
* Where it fails, it names the first selected element that refuses a write.  The elements before
  it are as if the update had succeeded, lines included, and those behind it are as they were. -/
theorem elements_run_update [Decimals] (clock : Clock) {target : Path} (filter : Condition)
    (assignments : List (Path × Literal)) {doc : Value} {items : List Value}
    (h : target.get? doc = some (.array items)) :
    let selected := filter.holds clock
    let values := assignments.map fun (p, l) => (p, l.resolve clock)
    let outcome := (update target filter assignments).run clock doc
    (outcome.success = true ↔
      ∀ old ∈ items, selected old = true → ∃ new, Assigns values old new) ∧
    ∃ after, target.get? outcome.newData = some (.array after) ∧
      outcome.newData = target.replace doc (.array after) ∧
      (outcome.success = true →
        UpdatedTo selected values items.length items after ∧
        outcome.changes = rewrittenLines target selected values 0 items.length items after) ∧
      (outcome.success = false →
        ∃ i old p r, items[i]? = some old ∧ selected old = true ∧ Refuses values old p r ∧
          outcome.error = some s!"SET on element {i} of '{target.text}': {r.message p}" ∧
          UpdatedTo selected values i items after ∧
          outcome.changes = rewrittenLines target selected values 0 i items after) := by
  intro selected values outcome
  have hends := update_ends target selected values items
  have hrun : Run.operations clock [.collection target (some filter) (.update assignments)] doc =
      (Run.update target selected values items).lift fun after =>
        target.replace doc (.array after) := by
    rw [operations_cons_nil]
    exact collection_update_eq clock filter assignments h
  have houtcome : outcome.success = (Run.update target selected values items).failure.isNone ∧
      outcome.newData =
        target.replace doc (.array (Run.update target selected values items).after) ∧
      outcome.changes = (Run.update target selected values items).changes ∧
      outcome.error = (Run.update target selected values items).failure.map Failure.message := by
    simp only [outcome, run, update, hrun]
    exact ⟨rfl, rfl, rfl, rfl⟩
  obtain ⟨hsuccess, hdata, hlines, herror⟩ := houtcome
  rw [hsuccess, hdata, hlines, herror]
  generalize Run.update target selected values items = effect at hends ⊢
  have hget : target.get? (target.replace doc (.array effect.after)) =
      some (.array effect.after) :=
    Steps.get?_replace_self h
  cases hends with
  | done hfailure hafter hchanges =>
    rw [hfailure]
    refine ⟨iff_of_true rfl ?_, _, hget, rfl, fun _ => ⟨hafter, hchanges⟩, Bool.noConfusion⟩
    intro old hold htest
    obtain ⟨i, hi, rfl⟩ := List.mem_iff_getElem.1 hold
    obtain ⟨new, -, hassigns⟩ :=
      hafter.written i hi items[i] (List.getElem?_eq_getElem hi) htest
    exact ⟨new, hassigns⟩
  | @refused i old p r hold htest hrefuses hfailure hafter hchanges =>
    rw [hfailure]
    refine ⟨iff_of_false Bool.noConfusion ?_, _, hget, rfl, Bool.noConfusion, ?_⟩
    · intro hall
      obtain ⟨new, hassigns⟩ := hall old (List.mem_of_getElem? hold) htest
      exact hassigns.not_refuses hrefuses
    · intro _
      refine ⟨i, old, p, r, hold, htest, hrefuses, ?_, hafter, hchanges⟩
      rw [Nat.zero_add]
      rfl

/-- The second of two selected elements refuses the second of two writes. -/
theorem elements_run_update_refused :
    let clock : Clock := ⟨2024, 1, 1, 0, 0, 0, 0⟩
    let steps : Path := ⟨[.key "steps"]⟩
    let filter : Condition := .truthy ⟨[.key "open"]⟩
    let assignments : List (Path × Literal) :=
      [(⟨[.key "state"]⟩, .string "due"), (⟨[.key "by", .key "name"]⟩, .string "Ada")]
    let first : Value := .object [("open", .boolean true)]
    let idle : Value := .object [("state", .string "new")]
    let last : Value := .object [("open", .boolean true), ("by", .string "Bob")]
    let doc : Value := .object [("steps", .array [first, idle, last])]
    let action : Action := update steps filter assignments
    Action.ofText "FOR steps WHERE open SET state 'due', by.name 'Ada'" = .ok action ∧
      steps.get? doc = some (.array [first, idle, last]) ∧
      (action.run clock doc).success = false ∧
      (action.run clock doc).changes = ["Updated steps[0]: state = \"due\", by.name = \"Ada\""] ∧
      ∃ (i : Nat) (old : Value) (p : Path) (r : Refusal),
        [first, idle, last][i]? = some old ∧ filter.holds clock old = true ∧
        Run.Refuses (assignments.map fun (p, l) => (p, l.resolve clock)) old p r ∧
        (action.run clock doc).error =
          some s!"SET on element {i} of '{steps.text}': {r.message p}" := by
  intro clock steps filter assignments first idle last doc action
  have hget : steps.get? doc = some (.array [first, idle, last]) := rfl
  have hfails : (action.run clock doc).success = false := by decide +kernel
  obtain ⟨-, after, -, -, -, hrefused⟩ := elements_run_update clock filter assignments hget
  obtain ⟨i, old, p, r, hold, htest, hrefuses, herror, -, -⟩ := hrefused hfails
  exact ⟨by decide +kernel, hget, hfails, by decide +kernel, i, old, p, r, hold, htest, hrefuses,
    herror⟩

end Action

end MetadataRules
