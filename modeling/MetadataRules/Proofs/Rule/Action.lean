/-
MetadataRules/Proofs/Rule/Action.lean

The readers of whole actions and the grammar.

A filter ends where the verb begins, since no condition goes on with a verb and
none begins with one.  So the path, the filter and the verb of a collection can
be told apart in the tokens, and a text is read as an action exactly when the
grammar has it (`Action.ofText_iff_actionOf`).
-/
import MetadataRules.Proofs.Rule.Verb

namespace MetadataRules

open Grammar Attempt

namespace Read

variable {ts rest : List Placed}

/-! ### The filter and the verb of a collection -/

/-- A condition does not begin with a verb. -/
theorem lacksFilter_eq_false {c : Condition} (h : (disjunction ts).Reads c rest) :
    lacksFilter ts = false := by
  obtain ⟨left, mid, hleft, -⟩ := reads_disjunction_iff.1 h
  obtain ⟨left, mid, hunary, -⟩ := reads_conjunction_iff.1 hleft
  rcases reads_unary_iff.1 hunary with ⟨-, hatom⟩ | ⟨t, behind, rfl, ht, -⟩
  · rcases ts with - | ⟨t, behind⟩
    · exact absurd hatom.length_lt (Nat.not_lt_zero _)
    · rcases reads_atom_cons.1 hatom with ⟨ht, -⟩ | ⟨ht, -⟩ | ⟨ht, -⟩ | ⟨⟨s, hs⟩, -⟩
      · simp [lacksFilter, ht]
      · simp [lacksFilter, ht, Keyword.isCollectionVerb]
      · simp [lacksFilter, ht, Keyword.isCollectionVerb]
      · unfold lacksFilter
        rw [nextToken?_cons]
        generalize t.token = token at hs
        cases hs <;> rfl
  · simp [lacksFilter, ht, Keyword.isCollectionVerb]

theorem reads_filter?_iff {target : Path} {f : Option Filter} :
    (filter? target ts).Reads f rest ↔
      (nextToken? ts ≠ some (.keyword .where_) ∧ none = f ∧ ts = rest) ∨
      ∃ t behind, ts = t :: behind ∧ t.token = .keyword .where_ ∧
        ∃ c, (disjunction behind).Reads c rest ∧ some ⟨c, t :: behind⟩ = f := by
  rcases ts with - | ⟨t, behind⟩
  · simp [filter?]
  · unfold filter?
    by_cases ht : t.token = .keyword .where_
    · by_cases hlacks : lacksFilter behind = true
      · -- the complaint that the condition is missing hides none that could be read
        have hnone : ∀ c, ¬ (disjunction behind).Reads c rest := by
          intro c h
          rw [lacksFilter_eq_false h] at hlacks
          cases hlacks
        simp [ht, hlacks, hnone]
      · simp [ht, hlacks]
    · simp [ht]

/-- The word for a verb on collections. -/
def IsVerb (kw : Keyword) : Prop := kw = .set ∨ kw.isCollectionVerb = true

theorem verbKeyword_eq_ok_iff {target : Path} {kw : Keyword} :
    verbKeyword target ts = .ok kw ↔ nextToken? ts = some (.keyword kw) ∧ IsVerb kw := by
  unfold verbKeyword
  split
  case h_2 hne => exact iff_of_false nofun fun h => hne _ h.1
  case h_1 word hword =>
    rw [hword, Option.some.injEq, Token.keyword.injEq]
    split
    -- of the verbs on fields only `SET` is one on collections too
    case h_1 hset =>
      cases ofKeyword?_eq_some_iff.1 hset
      rw [Except.ok.injEq]
      refine (and_iff_left_of_imp ?_).symm
      rintro rfl
      exact .inl rfl
    case h_2 verb hne hverb =>
      refine iff_of_false nofun ?_
      rintro ⟨rfl, h⟩
      cases ofKeyword?_eq_some_iff.1 hverb with
      | set => exact hne rfl
      | _ => rcases h with h | h <;> cases h
    case h_3 hnone =>
      have hset : word ≠ .set := by
        rintro rfl
        cases hnone
      split
      case isTrue hverb =>
        rw [Except.ok.injEq]
        refine (and_iff_left_of_imp ?_).symm
        rintro rfl
        exact .inr hverb
      case isFalse hverb =>
        refine iff_of_false nofun ?_
        rintro ⟨rfl, h⟩
        exact h.elim hset hverb

theorem isVerb_of_plainVerbOf {w : List Token} {v : Verb} (h : PlainVerbOf w v) :
    ∃ kw us, w = .keyword kw :: us ∧ IsVerb kw := by
  cases h <;> exact ⟨_, _, rfl, .inr rfl⟩

theorem isVerb_of_filteredVerbOf {w : List Token} {v : Verb} (h : FilteredVerbOf w v) :
    ∃ kw us, w = .keyword kw :: us ∧ IsVerb kw := by
  cases h with
  | set => exact ⟨_, _, rfl, .inl rfl⟩
  | _ => exact ⟨_, _, rfl, .inr rfl⟩

/-- No condition goes on with a verb. -/
theorem ends_of_isVerb {t : Placed} {kw : Keyword} (ht : t.token = .keyword kw) (h : IsVerb kw) :
    Ends true (t :: rest) := by
  rcases h with rfl | h
  · exact ends_cons (by rw [ht]; rfl) fun _ => by rw [ht]; rfl
  · refine ends_cons ?_ fun _ => ?_ <;> rw [ht] <;> cases kw <;> first | rfl | cases h

/-! ### Actions on collections -/

theorem collectionAction_eq_ok_iff {ops : List Operation} :
    collectionAction ts = .ok ops ↔
      ∃ target mid, (path .collectionPath ts).Reads target mid ∧
        ∃ f behind, (filter? target mid).Reads f behind ∧
          ∃ kw, verbKeyword target behind = .ok kw ∧
            ∃ v, (collectionVerb target f kw behind behind.tail).Reads v [] ∧
              [.collection target (f.map Filter.test) v] = ops := by
  unfold collectionAction
  rcases path .collectionPath ts with e | target
  · simp
  simp only [exists_reads_ok]
  rcases filter? target.value target.rest with e | f
  · simp
  simp only [exists_reads_ok]
  rcases verbKeyword target.value f.rest with e | kw
  · simp
  simp only [Except.ok.injEq, exists_eq_left']
  rcases collectionVerb target.value f.value kw f.rest f.rest.tail with e | verb
  · simp
  simp only [reads_ok]
  rcases hrest : verb.rest with - | ⟨t, behind⟩
  · simp [atKeyword, endOfAction]
  · split <;> simp_all [endOfAction]

/-- The operation behind `FOR`, to the end. -/
theorem actionOf_for_iff {action : Action} :
    ActionOf (.keyword .for_ :: Placed.tokens ts) action ↔
      collectionAction ts = .ok action.operations := by
  rw [collectionAction_eq_ok_iff]
  constructor
  · intro h
    generalize hw : Token.keyword .for_ :: Placed.tokens ts = w at h
    cases h with
    | fields hverb => cases hw; cases hverb
    | plain hp h =>
      obtain ⟨used, behind, rfl, rfl, rfl⟩ := List.map_eq_append_iff.1 (List.cons.inj hw).2
      obtain ⟨kw, us, hus, hverb⟩ := isVerb_of_plainVerbOf h
      obtain ⟨t, behind, rfl, ht, rfl⟩ := List.map_eq_cons_iff.1 hus
      have hne : ∀ {u : Token}, u ≠ .keyword kw → nextToken? (t :: behind) ≠ some u :=
        fun hu heq => hu ((Option.some.inj heq).symm.trans ht)
      refine ⟨_, _, reads_path_iff.2 ⟨used, rfl, hp, hne Token.noConfusion⟩, none, _,
        reads_filter?_iff.2 (.inl ⟨hne ?_, rfl, rfl⟩), kw,
        verbKeyword_eq_ok_iff.2 ⟨congrArg some ht, hverb⟩, _, ?_, rfl⟩
      · rintro ⟨⟩
        rcases hverb with hverb | hverb <;> cases hverb
      · rw [List.map_cons, ht] at h
        exact reads_of_plainVerbOf h
    | filtered hp hfilter h =>
      obtain ⟨front, behind, rfl, hfront, rfl⟩ := List.map_eq_append_iff.1 (List.cons.inj hw).2
      obtain ⟨used, mid, rfl, rfl, hmid⟩ := List.map_eq_append_iff.1 hfront
      obtain ⟨t, used', rfl, ht, rfl⟩ := List.map_eq_cons_iff.1 hmid
      obtain ⟨kw, us, hus, hverb⟩ := isVerb_of_filteredVerbOf h
      obtain ⟨u, behind, rfl, hu, rfl⟩ := List.map_eq_cons_iff.1 hus
      have hdot : nextToken? (t :: (used' ++ u :: behind)) ≠ some .dot := by
        rw [nextToken?_cons, ht]
        decide
      -- the verb goes on with no condition, so the filter is read up to it
      have hcond : (disjunction (used' ++ u :: behind)).Reads _ (u :: behind) :=
        reads_of_conditionOf hfilter (ends_of_isVerb hu hverb)
      rw [List.append_assoc]
      refine ⟨_, _, reads_path_iff.2 ⟨used, rfl, hp, hdot⟩, some ⟨_, _⟩, _,
        reads_filter?_iff.2 (.inr ⟨t, _, rfl, ht, _, hcond, rfl⟩), kw,
        verbKeyword_eq_ok_iff.2 ⟨congrArg some hu, hverb⟩, _, ?_, rfl⟩
      rw [List.map_cons, hu] at h
      exact reads_of_filteredVerbOf h
  · rintro ⟨target, mid, hp, f, behind, hf, kw, hkw, v, hv, heq⟩
    obtain ⟨ops⟩ := action
    obtain rfl := heq
    obtain ⟨used, rfl, hof, -⟩ := reads_path_iff.1 hp
    obtain ⟨hnext, -⟩ := verbKeyword_eq_ok_iff.1 hkw
    obtain ⟨w, behind, rfl⟩ : ∃ w us, behind = w :: us := by
      cases behind with
      | nil => cases hnext
      | cons w us => exact ⟨w, us, rfl⟩
    have hw : w.token = .keyword kw := Option.some.inj hnext
    rcases reads_filter?_iff.1 hf with ⟨-, rfl, rfl⟩ | ⟨t, mid, rfl, ht, c, hc, rfl⟩
    · obtain ⟨used', heq, hof'⟩ := plainVerbOf_of_reads hv
      rw [List.append_nil] at heq
      subst heq
      simpa [hw] using ActionOf.plain hof hof'
    · obtain ⟨used₁, rfl, hcond⟩ := conditionOf_of_reads hc
      obtain ⟨used₂, heq, hof'⟩ := filteredVerbOf_of_reads hv
      rw [List.append_nil] at heq
      subst heq
      simpa [hw, ht] using ActionOf.filtered hof hcond hof'

/-- An action that does not begin with `FOR` is one of a verb on fields. -/
theorem actionOf_iff_of_ne_for {t : Token} {w : List Token} {action : Action}
    (ht : t ≠ .keyword .for_) :
    ActionOf (t :: w) action ↔ ∃ kw verb, t = .keyword kw ∧ FieldVerbOf kw verb ∧
      SeparatedOf (FieldItemOf verb) w action.operations := by
  constructor
  · intro h
    cases h with
    | fields hverb h => exact ⟨_, _, rfl, hverb, h⟩
    | plain => exact absurd rfl ht
    | filtered => exact absurd rfl ht
  · rintro ⟨kw, verb, rfl, hverb, h⟩
    exact .fields hverb h

theorem map_mk_eq_ok_iff {ε : Type} {r : Except ε (List Operation)} {action : Action} :
    r.map Action.mk = .ok action ↔ r = .ok action.operations := by
  obtain ⟨ops⟩ := action
  cases r <;> simp [Except.map]

/-- The reader of whole actions accepts what the grammar calls an action. -/
theorem wholeAction_eq_ok_iff {action : Action} :
    wholeAction ts = .ok action ↔ ActionOf (Placed.tokens ts) action := by
  rcases ts with - | ⟨t, behind⟩
  · exact iff_of_false nofun nofun
  rw [Placed.tokens, List.map_cons]
  by_cases hfor : t.token = .keyword .for_
  · simp only [wholeAction, hfor, actionOf_for_iff, map_mk_eq_ok_iff]
  · rw [actionOf_iff_of_ne_for hfor]
    constructor
    · intro h
      unfold wholeAction at h
      dsimp only at h
      split at h
      case h_1 ht => exact absurd ht hfor
      case h_2 kw _ ht =>
        split at h
        case h_1 verb hverb =>
          rw [map_mk_eq_ok_iff, fieldAction_eq_ok_iff] at h
          exact ⟨kw, verb, ht, ofKeyword?_eq_some_iff.1 hverb, h⟩
        case h_2 =>
          split at h
          · cases h
          · split at h <;> cases h
      case h_3 => cases h
    · rintro ⟨kw, verb, ht, hverb, h⟩
      have hkw : kw ≠ .for_ := by
        rintro rfl
        cases hverb
      simp [wholeAction, ht, ofKeyword?_eq_some_iff.2 hverb, map_mk_eq_ok_iff,
        fieldAction_eq_ok_iff, h]

end Read

/-- **A text is read as an action exactly when its tokens are that action** by the grammar. -/
theorem Action.ofText_iff_actionOf {text : String} {scan : Scan} (h : tokenize text = .ok scan)
    (action : Action) :
    Action.ofText text = .ok action ↔ ActionOf (Placed.tokens scan.tokens) action := by
  rw [← Read.wholeAction_eq_ok_iff, Action.ofText, readText, h]
  dsimp only
  split <;> simp [*]

/-- The filter ends where `MOVE` begins, though it ends in a bare path. -/
theorem Action.ofText_iff_actionOf_move :
    ActionOf [.keyword .for_, .identifier "a", .keyword .where_, .keyword .any, .identifier "b",
        .keyword .where_, .identifier "c", .keyword .and, .identifier "d", .keyword .move,
        .keyword .to_, .keyword .before, .keyword .not, .keyword .has, .identifier "e"]
      ⟨[.collection ⟨[.key "a"]⟩
        (some (.anyElement ⟨[.key "b"]⟩ (.and (.truthy ⟨[.key "c"]⟩) (.truthy ⟨[.key "d"]⟩))))
        (.moveMatching (.before (.present ⟨[.key "e"]⟩ true)))]⟩ := by
  have h : tokenize "FOR a WHERE ANY b WHERE c AND d MOVE TO BEFORE NOT HAS e" = .ok
      ⟨[⟨.keyword .for_, 0⟩, ⟨.identifier "a", 4⟩, ⟨.keyword .where_, 6⟩, ⟨.keyword .any, 12⟩,
        ⟨.identifier "b", 16⟩, ⟨.keyword .where_, 18⟩, ⟨.identifier "c", 24⟩, ⟨.keyword .and, 26⟩,
        ⟨.identifier "d", 30⟩, ⟨.keyword .move, 32⟩, ⟨.keyword .to_, 37⟩, ⟨.keyword .before, 40⟩,
        ⟨.keyword .not, 47⟩, ⟨.keyword .has, 51⟩, ⟨.identifier "e", 55⟩], 56⟩ := by
    decide +kernel
  exact (Action.ofText_iff_actionOf h _).1 (by decide +kernel)

end MetadataRules
