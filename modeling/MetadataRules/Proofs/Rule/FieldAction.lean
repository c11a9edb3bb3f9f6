/-
MetadataRules/Proofs/Rule/FieldAction.lean

The readers of actions on fields and the grammar.

What stands between commas is read as itself where an item may end
(`Read.ItemEnds`).  Two readers go on behind a comma in the same way
(`Read.ReadsSeparated`), the one of fields here and the one of assignments, so
both directions are proved for lists of any phrase first.
-/
import MetadataRules.Proofs.Rule.Phrase
import MetadataRules.Rule.Action

namespace MetadataRules

open Grammar Attempt

namespace Read

variable {ts rest used : List Placed}

/-- An item of a list may end here: a comma follows, or nothing. -/
def ItemEnds (rest : List Placed) : Prop := ∀ t, nextToken? rest = some t → t = .comma

theorem itemEnds_nil : ItemEnds [] := nofun

theorem itemEnds_cons {t : Placed} (ht : t.token = .comma) : ItemEnds (t :: rest) := by
  rintro _ ⟨⟩
  exact ht

theorem ItemEnds.ne_dot (h : ItemEnds rest) : nextToken? rest ≠ some .dot :=
  fun hdot => absurd (h _ hdot) nofun

/-! ### Phrases with commas between them -/

section Separated

variable {α : Type} {phrase : List Token → α → Prop} {item : List Placed → α → List Placed → Prop}
  {list : List Placed → List α → List Placed → Prop}

/-- `list` reads what `item` reads, and goes on behind a comma. -/
def ReadsSeparated (item : List Placed → α → List Placed → Prop)
    (list : List Placed → List α → List Placed → Prop) : Prop :=
  ∀ ts as rest, list ts as rest ↔ ∃ a mid, item ts a mid ∧
    ((nextToken? mid ≠ some .comma ∧ [a] = as ∧ mid = rest) ∨
      ∃ t behind, mid = t :: behind ∧ t.token = .comma ∧
        ∃ more, list behind more rest ∧ a :: more = as)

theorem separatedOf_of_reads (hlist : ReadsSeparated item list)
    (hitem : ∀ {ts a rest}, item ts a rest →
      rest.length < ts.length ∧ ∃ used, ts = used ++ rest ∧ phrase (Placed.tokens used) a)
    (ts : List Placed) {as : List α} {rest : List Placed} (h : list ts as rest) :
    ∃ used, ts = used ++ rest ∧ SeparatedOf phrase (Placed.tokens used) as := by
  obtain ⟨a, mid, ha, ⟨-, rfl, rfl⟩ | ⟨t, behind, rfl, ht, more, hmore, rfl⟩⟩ := (hlist _ _ _).1 h
  · obtain ⟨-, used, heq, hof⟩ := hitem ha
    exact ⟨used, heq, .single hof⟩
  · obtain ⟨hlt, used, heq, hof⟩ := hitem ha
    rw [List.length_cons] at hlt
    obtain ⟨used', rfl, hof'⟩ := separatedOf_of_reads hlist hitem behind hmore
    refine ⟨used ++ t :: used', by simp [heq], ?_⟩
    simpa [ht] using SeparatedOf.cons hof hof'
termination_by ts.length

theorem reads_of_separatedOf (hlist : ReadsSeparated item list)
    (hitem : ∀ {used a rest}, phrase (Placed.tokens used) a → ItemEnds rest →
      item (used ++ rest) a rest)
    {as : List α} (h : SeparatedOf phrase (Placed.tokens used) as) : list used as [] := by
  generalize hw : Placed.tokens used = w at h
  induction h generalizing used with
  | single h =>
    subst hw
    have hread := hitem h itemEnds_nil
    rw [List.append_nil] at hread
    exact (hlist _ _ _).2 ⟨_, _, hread, .inl ⟨nofun, rfl, rfl⟩⟩
  | cons h hrest ih =>
    obtain ⟨used, behind, rfl, rfl, hbehind⟩ := List.map_eq_append_iff.1 hw
    obtain ⟨t, used', rfl, ht, hused'⟩ := List.map_eq_cons_iff.1 hbehind
    have hends : ItemEnds (t :: used') := itemEnds_cons ht
    have hread := hitem h hends
    exact (hlist _ _ _).2 ⟨_, _, hread, .inr ⟨t, _, rfl, ht, _, ih hused', rfl⟩⟩

end Separated

/-! ### Actions on fields -/

theorem isCurrent_eq_true_iff {w : List Token} {p : Path} (h : PathOf w p) :
    p.isCurrent = true ↔ w = [.at_] := by
  obtain ⟨hs, hss⟩ := h
  cases hs with
  | current =>
    cases hss with
    | nil => exact iff_of_true rfl rfl
    | cons => exact iff_of_false nofun nofun
  | _ => exact iff_of_false nofun nofun

/-- The field of a verb is read up to its last dot. -/
theorem reads_field_iff {what : Expectation} {verb : FieldVerb} {p : Path} :
    (field what verb ts).Reads p rest ↔
      ∃ used, ts = used ++ rest ∧ FieldOf (Placed.tokens used) p ∧
        nextToken? rest ≠ some .dot := by
  have hfield : (field what verb ts).Reads p rest ↔
      (path what ts).Reads p rest ∧ ¬ p.isCurrent = true := by
    unfold field
    rcases path what ts with e | q
    · simp
    · by_cases hq : q.value.isCurrent = true
      · simp only [hq, if_true, reads_error, false_iff, reads_ok]
        rintro ⟨⟨rfl, -⟩, hp⟩
        exact hp hq
      · simp only [hq, Bool.false_eq_true, if_false, reads_ok]
        constructor
        · rintro ⟨rfl, hrest⟩
          exact ⟨⟨rfl, hrest⟩, hq⟩
        · exact And.left
  rw [hfield, reads_path_iff]
  constructor
  · rintro ⟨⟨used, heq, hof, hdot⟩, hcurrent⟩
    exact ⟨used, heq, ⟨hof, mt (isCurrent_eq_true_iff hof).2 hcurrent⟩, hdot⟩
  · rintro ⟨used, heq, ⟨hof, hne⟩, hdot⟩
    exact ⟨⟨used, heq, hof, hdot⟩, mt (isCurrent_eq_true_iff hof).1 hne⟩

/-- An assigned value is read as itself, whatever follows it. -/
theorem reads_assigned_iff {p : Path} {l : Literal} :
    (assigned p ts).Reads l rest ↔
      ∃ used, ts = used ++ rest ∧ AssignedOf (Placed.tokens used) l := by
  constructor
  · intro h
    rcases ts with - | ⟨t, behind⟩
    · obtain ⟨used, heq, hof⟩ := reads_literalFor_iff.1 h
      exact ⟨used, heq, .plain hof⟩
    · rw [assigned] at h
      split at h
      · rename_i ht
        obtain ⟨used, rfl, hof⟩ := reads_literalFor_iff.1 (reads_behind.1 h)
        exact ⟨t :: used, rfl, by simpa [ht] using AssignedOf.equal hof⟩
      · obtain ⟨used, heq, hof⟩ := reads_literalFor_iff.1 h
        exact ⟨used, heq, .plain hof⟩
  · rintro ⟨used, rfl, hof⟩
    generalize hw : Placed.tokens used = w at hof
    cases hof with
    | plain h =>
      obtain ⟨t, v, rfl, hstart⟩ := exists_of_literalOf h
      obtain ⟨t, used, rfl, rfl, rfl⟩ := List.map_eq_cons_iff.1 hw
      -- no literal begins with `=`, so the sign is not taken for the optional one
      have ht : t.token ≠ .eq := by
        intro heq
        rw [heq] at hstart
        cases hstart
      rw [List.cons_append, assigned, if_neg ht]
      exact reads_literalFor_iff.2 ⟨t :: used, rfl, h⟩
    | equal h =>
      obtain ⟨t, used, rfl, ht, rfl⟩ := List.map_eq_cons_iff.1 hw
      rw [List.cons_append, assigned, if_pos ht]
      exact reads_behind.2 (reads_literalFor_iff.2 ⟨used, rfl, h⟩)

theorem ne_dot_of_assignedOf {l : Literal} (h : AssignedOf (Placed.tokens used) l)
    (rest : List Placed) : nextToken? (used ++ rest) ≠ some .dot := by
  generalize hw : Placed.tokens used = w at h
  cases h with
  | plain h =>
    obtain ⟨t, hnext, hstart⟩ := startsLiteral_of_literalOf h hw rest
    rw [hnext]
    rintro ⟨⟩
    cases hstart
  | equal h =>
    obtain ⟨t, used, rfl, ht, -⟩ := List.map_eq_cons_iff.1 hw
    rw [List.cons_append, nextToken?_cons, ht]
    exact nofun

theorem amountOf_of_reads {p : Path} {verb : FieldVerb} {n : Option Number}
    (h : (amount p verb ts).Reads n rest) :
    ∃ used, ts = used ++ rest ∧ AmountOf (Placed.tokens used) n := by
  rcases ts with - | ⟨t, behind⟩
  · obtain ⟨rfl, rfl⟩ := reads_ok.1 h
    exact ⟨[], rfl, .none⟩
  · unfold amount at h
    dsimp only at h
    split at h
    case h_1 n ht =>
      obtain ⟨rfl, rfl⟩ := reads_ok.1 (reads_behind.1 h)
      exact ⟨[t], rfl, by simpa [ht] using AmountOf.number n⟩
    case h_4 => exact (reads_error _ h).elim
    all_goals
      obtain ⟨rfl, rfl⟩ := reads_ok.1 h
      exact ⟨[], rfl, .none⟩

theorem reads_of_amountOf {p : Path} {verb : FieldVerb} {n : Option Number}
    (h : AmountOf (Placed.tokens used) n) (hends : ItemEnds rest) :
    (amount p verb (used ++ rest)).Reads n rest := by
  generalize hw : Placed.tokens used = w at h
  cases h with
  | none =>
    obtain rfl := List.map_eq_nil_iff.1 hw
    rcases rest with - | ⟨t, behind⟩
    · exact reads_ok.2 ⟨rfl, rfl⟩
    · have ht : t.token = .comma := hends _ rfl
      simp [amount, ht]
  | number n =>
    obtain ⟨t, rfl, ht⟩ := List.map_eq_singleton_iff.1 hw
    rw [List.singleton_append, amount.eq_def]
    dsimp only
    rw [ht]
    exact reads_behind.2 (reads_ok.2 ⟨rfl, rfl⟩)

theorem ne_dot_of_amountOf {n : Option Number} (h : AmountOf (Placed.tokens used) n)
    (hends : ItemEnds rest) : nextToken? (used ++ rest) ≠ some .dot := by
  generalize hw : Placed.tokens used = w at h
  cases h with
  | none =>
    obtain rfl := List.map_eq_nil_iff.1 hw
    exact hends.ne_dot
  | number n =>
    obtain ⟨t, rfl, ht⟩ := List.map_eq_singleton_iff.1 hw
    rw [List.singleton_append, nextToken?_cons, ht]
    exact nofun

/-- No path begins where a second verb stands. -/
theorem secondVerb?_eq_none {verb : FieldVerb} (h : ∀ kw, nextToken? ts ≠ some (.keyword kw)) :
    secondVerb? verb ts = none := by
  unfold secondVerb?
  split
  · rename_i kw hkw
    exact absurd hkw (h kw)
  · rfl

theorem reads_fieldItem_iff {verb : FieldVerb} {op : Operation} :
    (fieldItem verb ts).Reads op rest ↔
      ∃ p mid, (field (.fieldOf verb) verb ts).Reads p mid ∧
        (fieldEdit verb p mid).Reads op rest := by
  -- the complaint about a second verb is made only where no path could be read
  have hverb : (∃ p mid, (field (.fieldOf verb) verb ts).Reads p mid ∧
      (fieldEdit verb p mid).Reads op rest) → secondVerb? verb ts = none := by
    rintro ⟨p, mid, hp, -⟩
    obtain ⟨used, rfl, ⟨hof, -⟩, -⟩ := reads_field_iff.1 hp
    obtain ⟨t, used, rfl, s, hs⟩ := exists_of_pathOf hof
    refine secondVerb?_eq_none fun kw hkw => ?_
    rw [Option.some.inj hkw] at hs
    cases hs
  unfold fieldItem
  rcases hsecond : secondVerb? verb ts with - | fault
  · rcases field (.fieldOf verb) verb ts with e | p
    · simp
    · simp only [exists_reads_ok, reads_after]
  · refine iff_of_false (reads_error _) fun h => ?_
    rw [hverb h] at hsecond
    cases hsecond

/-- `RENAME` reads its second path behind `TO`. -/
theorem reads_fieldEdit_rename_iff {p : Path} {op : Operation} :
    (fieldEdit .rename p ts).Reads op rest ↔
      ∃ t behind, ts = t :: behind ∧ t.token = .keyword .to_ ∧
        ∃ q, (field (.renameTarget p) .rename behind).Reads q rest ∧ .rename p q = op := by
  have hkeyword : (∃ mid, (keyword .to_ (.renameTo p) ts).Reads () mid ∧
      ∃ q, (field (.renameTarget p) .rename mid).Reads q rest ∧ .rename p q = op) ↔
        (fieldEdit .rename p ts).Reads op rest := by
    unfold fieldEdit
    dsimp only
    rcases keyword .to_ (.renameTo p) ts with e | k
    · simp
    · simp
  simp only [← hkeyword, reads_keyword_iff]
  constructor
  · rintro ⟨mid, ⟨t, rfl, ht⟩, hq⟩
    exact ⟨t, mid, rfl, ht, hq⟩
  · rintro ⟨t, mid, rfl, ht, hq⟩
    exact ⟨mid, ⟨t, rfl, ht⟩, hq⟩

theorem fieldItemOf_of_reads {verb : FieldVerb} {op : Operation}
    (h : (fieldItem verb ts).Reads op rest) :
    ∃ used, ts = used ++ rest ∧ FieldItemOf verb (Placed.tokens used) op := by
  obtain ⟨p, mid, hp, hedit⟩ := reads_fieldItem_iff.1 h
  obtain ⟨used, rfl, hof, -⟩ := reads_field_iff.1 hp
  cases verb with
  | set =>
    rw [fieldEdit, reads_behind, reads_map] at hedit
    obtain ⟨l, hl, rfl⟩ := hedit
    obtain ⟨used', rfl, hof'⟩ := reads_assigned_iff.1 hl
    exact ⟨used ++ used', by simp, by simpa using FieldItemOf.set hof hof'⟩
  | delete =>
    obtain ⟨rfl, rfl⟩ := reads_ok.1 hedit
    exact ⟨used, rfl, .delete hof⟩
  | rename =>
    obtain ⟨t, behind, rfl, ht, q, hq, rfl⟩ := reads_fieldEdit_rename_iff.1 hedit
    obtain ⟨used', rfl, hof', -⟩ := reads_field_iff.1 hq
    exact ⟨used ++ t :: used', by simp, by simpa [ht] using FieldItemOf.rename hof hof'⟩
  | increment =>
    rw [fieldEdit, reads_map] at hedit
    obtain ⟨n, hn, rfl⟩ := hedit
    obtain ⟨used', rfl, hof'⟩ := amountOf_of_reads hn
    exact ⟨used ++ used', by simp, by simpa using FieldItemOf.increment hof hof'⟩
  | decrement =>
    rw [fieldEdit, reads_map] at hedit
    obtain ⟨n, hn, rfl⟩ := hedit
    obtain ⟨used', rfl, hof'⟩ := amountOf_of_reads hn
    exact ⟨used ++ used', by simp, by simpa using FieldItemOf.decrement hof hof'⟩

theorem reads_of_fieldItemOf {verb : FieldVerb} {op : Operation}
    (h : FieldItemOf verb (Placed.tokens used) op) (hends : ItemEnds rest) :
    (fieldItem verb (used ++ rest)).Reads op rest := by
  generalize hw : Placed.tokens used = w at h
  cases h with
  | set hp h =>
    obtain ⟨used, used', rfl, rfl, rfl⟩ := List.map_eq_append_iff.1 hw
    rw [List.append_assoc]
    refine reads_fieldItem_iff.2
      ⟨_, _, reads_field_iff.2 ⟨used, rfl, hp, ne_dot_of_assignedOf h rest⟩, ?_⟩
    rw [fieldEdit, reads_behind, reads_map]
    exact ⟨_, reads_assigned_iff.2 ⟨used', rfl, h⟩, rfl⟩
  | delete hp =>
    subst hw
    exact reads_fieldItem_iff.2
      ⟨_, _, reads_field_iff.2 ⟨used, rfl, hp, hends.ne_dot⟩, reads_ok.2 ⟨rfl, rfl⟩⟩
  | rename hp hq =>
    obtain ⟨used, behind, rfl, rfl, hbehind⟩ := List.map_eq_append_iff.1 hw
    obtain ⟨t, used', rfl, ht, rfl⟩ := List.map_eq_cons_iff.1 hbehind
    rw [List.append_assoc]
    have hdot : nextToken? (t :: (used' ++ rest)) ≠ some .dot := by
      rw [nextToken?_cons, ht]
      exact nofun
    refine reads_fieldItem_iff.2 ⟨_, _, reads_field_iff.2 ⟨used, rfl, hp, hdot⟩, ?_⟩
    exact reads_fieldEdit_rename_iff.2
      ⟨t, _, rfl, ht, _, reads_field_iff.2 ⟨used', rfl, hq, hends.ne_dot⟩, rfl⟩
  | increment hp h =>
    obtain ⟨used, used', rfl, rfl, rfl⟩ := List.map_eq_append_iff.1 hw
    rw [List.append_assoc]
    refine reads_fieldItem_iff.2
      ⟨_, _, reads_field_iff.2 ⟨used, rfl, hp, ne_dot_of_amountOf h hends⟩, ?_⟩
    rw [fieldEdit, reads_map]
    exact ⟨_, reads_of_amountOf h hends, rfl⟩
  | decrement hp h =>
    obtain ⟨used, used', rfl, rfl, rfl⟩ := List.map_eq_append_iff.1 hw
    rw [List.append_assoc]
    refine reads_fieldItem_iff.2
      ⟨_, _, reads_field_iff.2 ⟨used, rfl, hp, ne_dot_of_amountOf h hends⟩, ?_⟩
    rw [fieldEdit, reads_map]
    exact ⟨_, reads_of_amountOf h hends, rfl⟩

theorem readsSeparated_fieldItems (verb : FieldVerb) :
    ReadsSeparated (fun ts op rest => (fieldItem verb ts).Reads op rest)
      fun ts ops rest => (fieldItems verb ts).Reads ops rest := by
  intro ts ops rest
  dsimp only
  rw [fieldItems]
  rcases fieldItem verb ts with e | item
  · simp
  · simp only [exists_reads_ok]
    split
    · simp [*]
    · rename_i t behind hrest
      by_cases ht : t.token = .comma
      · simp [ht, hrest]
      · simp [ht, hrest]

theorem ofKeyword?_eq_some_iff {kw : Keyword} {verb : FieldVerb} :
    FieldVerb.ofKeyword? kw = some verb ↔ FieldVerbOf kw verb := by
  constructor
  · intro h
    unfold FieldVerb.ofKeyword? at h
    split at h <;> cases h <;> constructor
  · rintro (_ | _ | _ | _ | _) <;> rfl

/-- The fields of a verb are items with commas between them, to the end. -/
theorem fieldAction_eq_ok_iff {verb : FieldVerb} {ops : List Operation} :
    fieldAction verb ts = .ok ops ↔ SeparatedOf (FieldItemOf verb) (Placed.tokens ts) ops := by
  have hitems : fieldAction verb ts = .ok ops ↔ (fieldItems verb ts).Reads ops [] := by
    unfold fieldAction
    rcases fieldItems verb ts with e | items
    · simp
    · rw [reads_ok]
      rcases hrest : items.rest with - | ⟨t, behind⟩
      · simp [hrest, atKeyword, endOfAction]
      · dsimp only
        split <;> simp_all [endOfAction]
  rw [hitems]
  constructor
  · intro h
    obtain ⟨used, heq, hof⟩ := separatedOf_of_reads (readsSeparated_fieldItems verb)
      (fun hitem => ⟨hitem.length_lt, fieldItemOf_of_reads hitem⟩) ts h
    rw [heq, List.append_nil]
    exact hof
  · exact reads_of_separatedOf (readsSeparated_fieldItems verb) reads_of_fieldItemOf

end Read

end MetadataRules
