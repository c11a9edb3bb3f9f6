/-
MetadataRules/Proofs/Rule/Predicate.lean

The readers of tests of one path and the grammar.

What is read behind a path is a test (`Read.predicateOf_of_reads`), and a test
is read as itself when what follows does not go on with it
(`Read.reads_of_predicateOf`).  A token goes on with a phrase when it can follow
a path in a test (`Token.extendsTest`), or when it is `AND` or `OR` and the
phrase ends in an `ANY` outside parentheses: `Read.Ends` rules both out.
-/
import MetadataRules.Proofs.Rule.Phrase
import MetadataRules.Rule.Condition

namespace MetadataRules

open Grammar Attempt

namespace Token

/-- A token that goes on with a path or with a test of it. -/
def extendsTest : Token → Bool
  | .dot | .eq | .notEq | .lt | .ltEq | .gt | .gtEq => true
  | .keyword .exists_ | .keyword .not | .keyword .contains | .keyword .in_ => true
  | _ => false

/-- A token that goes on with a path as a test of it. -/
def opensTest (t : Token) : Bool := t.extendsTest && t != .dot

/-- A word that joins two conditions. -/
def joins : Token → Bool
  | .keyword .and | .keyword .or => true
  | _ => false

end Token

namespace Read

variable {ts rest : List Placed} {c : Condition} {p : Path} {mark : Bool}

/-- Neither `AND` nor `OR` follows. -/
def Apart (rest : List Placed) : Prop := ∀ t, nextToken? rest = some t → t.joins = false

/-- What follows a phrase does not go on with it; `mark` is that of the phrase. -/
structure Ends (mark : Bool) (rest : List Placed) : Prop where
  test : ∀ t, nextToken? rest = some t → t.extendsTest = false
  apart : mark = true → Apart rest

theorem apart_nil : Apart [] := nofun

theorem Apart.ne {t : Token} (h : Apart rest) (ht : t.joins = true) :
    nextToken? rest ≠ some t := by
  intro hnext
  rw [h t hnext] at ht
  cases ht

/-- A phrase that ends in an `ANY` outside parentheses is followed by neither `AND` nor `OR`. -/
theorem mark_eq_false {t : Token} (hapart : mark = true → Apart rest)
    (hnext : nextToken? rest = some t) (ht : t.joins = true) : mark = false := by
  cases mark with
  | false => rfl
  | true => exact absurd hnext ((hapart rfl).ne ht)

/-- What is neither `AND` nor `OR` joins nothing. -/
theorem apart_of_ne (hand : nextToken? rest ≠ some (.keyword .and))
    (hor : nextToken? rest ≠ some (.keyword .or)) : Apart rest := by
  intro t ht
  rw [ht] at hand hor
  unfold Token.joins
  split
  · exact absurd rfl hand
  · exact absurd rfl hor
  · rfl

theorem ends_nil : Ends mark [] := ⟨nofun, fun _ => apart_nil⟩

theorem ends_cons {t : Placed} (htest : t.token.extendsTest = false)
    (hjoins : mark = true → t.token.joins = false) : Ends mark (t :: rest) where
  test := by
    rintro _ ⟨⟩
    exact htest
  apart hmark := by
    rintro _ ⟨⟩
    exact hjoins hmark

theorem Ends.of_true (h : Ends true rest) : Ends mark rest := ⟨h.test, fun _ => h.apart rfl⟩

/-- A token that goes on with a test does not follow. -/
theorem Ends.ne {t : Token} (h : Ends mark rest) (ht : t.extendsTest = true) :
    nextToken? rest ≠ some t := by
  intro hnext
  rw [h.test t hnext] at ht
  cases ht

/-! ### Tests of one path -/

theorem comparison?_eq_some_iff {t : Token} {op : Comparison} :
    comparison? t = some op ↔ SignOf t op := by
  constructor
  · intro h
    unfold comparison? at h
    split at h <;> cases h <;> constructor
  · rintro (_ | _ | _ | _ | _ | _) <;> rfl

theorem membership?_eq_none_iff :
    membership? p ts = none ↔
      nextToken? ts ≠ some (.keyword .contains) ∧ nextToken? ts ≠ some (.keyword .in_) := by
  rcases ts with - | ⟨t, ts⟩
  · simp [membership?]
  · unfold membership?
    dsimp only
    split <;> simp_all

theorem membership?_cons_eq_none {t : Placed} {u : Token} (ht : t.token = u)
    (hcontains : u ≠ .keyword .contains) (hin : u ≠ .keyword .in_) :
    membership? p (t :: ts) = none := by
  rw [membership?_eq_none_iff, nextToken?_cons, ht]
  exact ⟨fun heq => hcontains (Option.some.inj heq), fun heq => hin (Option.some.inj heq)⟩

theorem membershipOf_iff {w : List Token} :
    MembershipOf p w c ↔
      ∃ v l, LiteralOf v l ∧ (w = .keyword .contains :: v ∧ .contains p l = c ∨
        w = .keyword .in_ :: v ∧ .oneOf p l.entries = c) := by
  constructor
  · rintro (h | h | ⟨h, hl⟩)
    · exact ⟨_, _, h, .inl ⟨rfl, rfl⟩⟩
    · exact ⟨_, _, h, .inr ⟨rfl, rfl⟩⟩
    · refine ⟨_, _, h, .inr ⟨rfl, congrArg _ ?_⟩⟩
      unfold Literal.entries
      split
      · rename_i items
        exact absurd rfl (hl items)
      · rfl
  · rintro ⟨v, l, h, ⟨rfl, rfl⟩ | ⟨rfl, rfl⟩⟩
    · exact .contains h
    · cases l with
      | array items => exact .oneOfList h
      | _ => exact .oneOfOne h nofun

/-- `CONTAINS` and `IN` are read with the literal behind them. -/
theorem reads_membership?_iff :
    (∃ reading, membership? p ts = some reading ∧ reading.Reads c rest) ↔
      ∃ used, ts = used ++ rest ∧ MembershipOf p (Placed.tokens used) c := by
  simp only [membershipOf_iff]
  constructor
  · rintro ⟨reading, hreading, h⟩
    unfold membership? at hreading
    split at hreading
    · cases hreading
    · rename_i t behind
      split at hreading <;> cases hreading <;>
        rw [reads_behind, reads_map] at h <;>
        obtain ⟨l, hl, rfl⟩ := h <;>
        obtain ⟨used, rfl, hof⟩ := reads_literalFor_iff.1 hl
      · exact ⟨t :: used, rfl, _, l, hof, .inl ⟨by simp [*], rfl⟩⟩
      · exact ⟨t :: used, rfl, _, l, hof, .inr ⟨by simp [*], rfl⟩⟩
  · rintro ⟨used, rfl, v, l, hof, ⟨hw, rfl⟩ | ⟨hw, rfl⟩⟩ <;>
      obtain ⟨t, used, rfl, ht, rfl⟩ := List.map_eq_cons_iff.1 hw <;>
      simp only [List.cons_append, membership?, ht] <;>
      refine ⟨_, rfl, reads_behind.2 (reads_map.2 ⟨l, ?_, rfl⟩)⟩ <;>
      exact reads_literalFor_iff.2 ⟨used, rfl, hof⟩

/-- What may follow a path is read behind it. -/
theorem predicateOf_of_reads (h : (predicate p ts).Reads c rest) :
    ∃ used, ts = used ++ rest ∧ PredicateOf p (Placed.tokens used) c := by
  rw [predicate.eq_def] at h
  rcases hmember : membership? p ts with - | reading <;> rw [hmember] at h
  case some =>
    obtain ⟨used, heq, hof⟩ := reads_membership?_iff.1 ⟨reading, hmember, reads_behind.1 h⟩
    exact ⟨used, heq, .member hof⟩
  rcases ts with - | ⟨t, behind⟩ <;> dsimp only at h
  · obtain ⟨rfl, rfl⟩ := reads_ok.1 h
    exact ⟨[], rfl, .truthy⟩
  rcases hop : comparison? t.token with - | op <;> simp only [hop] at h
  case some =>
    simp only [reads_behind, reads_map] at h
    obtain ⟨l, hl, rfl⟩ := h
    obtain ⟨used, rfl, hof⟩ := reads_literalFor_iff.1 hl
    exact ⟨t :: used, rfl, .compare (comparison?_eq_some_iff.1 hop) hof⟩
  split at h
  case h_1 ht =>
    obtain ⟨rfl, rfl⟩ := reads_ok.1 (reads_behind.1 h)
    exact ⟨[t], rfl, by simpa [ht] using PredicateOf.exists⟩
  case h_2 ht =>
    rcases hmember' : membership? p behind with - | reading <;> rw [hmember'] at h
    · rcases behind with - | ⟨u, behind⟩ <;> dsimp only at h
      · exact (reads_error _ h).elim
      · split at h
        case isTrue hu =>
          obtain ⟨rfl, rfl⟩ := reads_ok.1 (reads_behind.1 (reads_behind.1 h))
          exact ⟨[t, u], rfl, by simpa [ht, hu] using PredicateOf.notExists⟩
        case isFalse => exact (reads_error _ h).elim
    · simp only [reads_behind, reads_map] at h
      obtain ⟨d, hd, rfl⟩ := h
      obtain ⟨used, rfl, hof⟩ := reads_membership?_iff.1 ⟨reading, hmember', hd⟩
      exact ⟨t :: used, rfl, by simpa [ht] using PredicateOf.notMember hof⟩
  case h_3 =>
    obtain ⟨rfl, rfl⟩ := reads_ok.1 h
    exact ⟨[], rfl, .truthy⟩

/-- Without `CONTAINS`, `IN`, a comparison, `EXISTS` or `NOT` a path stands by itself. -/
theorem reads_predicate_of_not_opensTest (h : (nextToken? rest).any Token.opensTest = false) :
    (predicate p rest).Reads (.truthy p) rest := by
  have hne : ∀ u : Token, u.opensTest = true → nextToken? rest ≠ some u := by
    intro u hu hnext
    rw [hnext, Option.any_some, hu] at h
    cases h
  have hmember : membership? p rest = none :=
    membership?_eq_none_iff.2 ⟨hne _ rfl, hne _ rfl⟩
  unfold predicate
  rw [hmember]
  rcases rest with - | ⟨t, behind⟩
  · exact reads_ok.2 ⟨rfl, rfl⟩
  have ht : t.token.opensTest = false := h
  dsimp only
  split
  · rename_i op hop
    have hsign := comparison?_eq_some_iff.1 hop
    generalize t.token = token at ht hsign
    cases hsign <;> cases ht
  · split
    · rename_i hexists
      rw [hexists] at ht
      cases ht
    · rename_i hnot
      rw [hnot] at ht
      cases ht
    · exact reads_ok.2 ⟨rfl, rfl⟩

theorem reads_predicate_of_ends (h : Ends mark rest) :
    (predicate p rest).Reads (.truthy p) rest := by
  refine reads_predicate_of_not_opensTest ?_
  rcases rest with - | ⟨t, behind⟩
  · rfl
  · rw [nextToken?_cons, Option.any_some, Token.opensTest, h.test t.token rfl, Bool.false_and]

theorem reads_predicate_of_membershipOf {used : List Placed}
    (h : MembershipOf p (Placed.tokens used) c) (rest : List Placed) :
    (predicate p (used ++ rest)).Reads c rest := by
  obtain ⟨reading, hreading, hreads⟩ := reads_membership?_iff.2 ⟨used, rfl, h⟩
  unfold predicate
  rw [hreading]
  exact reads_behind.2 hreads

/-- Without a token of its own a test is that of the path itself. -/
theorem eq_truthy_of_predicateOf_nil (h : PredicateOf p [] c) : c = .truthy p := by
  cases h with
  | member h => cases h
  | truthy => rfl

/-- A test that has a token of its own is read as itself, whatever follows. -/
theorem reads_of_predicateOf_of_ne_nil {used : List Placed}
    (h : PredicateOf p (Placed.tokens used) c) (hne : used ≠ []) (rest : List Placed) :
    (predicate p (used ++ rest)).Reads c rest := by
  generalize hw : Placed.tokens used = w at h
  cases h with
  | compare hop h =>
    obtain ⟨t, used, rfl, rfl, rfl⟩ := List.map_eq_cons_iff.1 hw
    have hsign : ∀ kw, t.token ≠ .keyword kw := by
      rintro kw heq
      rw [heq] at hop
      cases hop
    have hmember : membership? p (t :: (used ++ rest)) = none :=
      membership?_cons_eq_none rfl (hsign _) (hsign _)
    rw [List.cons_append, predicate.eq_def, hmember]
    simp only [comparison?_eq_some_iff.2 hop, reads_behind, reads_map]
    exact ⟨_, reads_literalFor_iff.2 ⟨used, rfl, h⟩, rfl⟩
  | «exists» =>
    obtain ⟨t, rfl, ht⟩ := List.map_eq_singleton_iff.1 hw
    have hmember : membership? p (t :: rest) = none :=
      membership?_cons_eq_none ht (by decide) (by decide)
    rw [List.singleton_append, predicate.eq_def, hmember]
    simp [ht, comparison?]
  | notExists =>
    obtain ⟨t, used, rfl, ht, hused⟩ := List.map_eq_cons_iff.1 hw
    obtain ⟨u, rfl, hu⟩ := List.map_eq_singleton_iff.1 hused
    -- neither `NOT` itself nor the word behind it is `CONTAINS` or `IN`
    have hmember : membership? p (t :: u :: rest) = none :=
      membership?_cons_eq_none ht (by decide) (by decide)
    have hmember' : membership? p (u :: rest) = none :=
      membership?_cons_eq_none hu (by decide) (by decide)
    rw [List.cons_append, List.singleton_append, predicate.eq_def, hmember]
    simp [ht, hu, comparison?, hmember']
  | member h =>
    subst hw
    exact reads_predicate_of_membershipOf h rest
  | notMember h =>
    obtain ⟨t, used, rfl, ht, rfl⟩ := List.map_eq_cons_iff.1 hw
    have hmember : membership? p (t :: (used ++ rest)) = none :=
      membership?_cons_eq_none ht (by decide) (by decide)
    obtain ⟨reading, hreading, hreads⟩ := reads_membership?_iff.2 ⟨used, rfl, h⟩
    rw [List.cons_append, predicate.eq_def, hmember]
    dsimp only
    rw [ht, hreading]
    exact reads_behind.2 (reads_behind.2 (reads_map.2 ⟨_, hreads, rfl⟩))
  | truthy => exact absurd (List.map_eq_nil_iff.1 hw) hne

/-- What may follow a path is read as itself. -/
theorem reads_of_predicateOf {used : List Placed} (h : PredicateOf p (Placed.tokens used) c)
    (hends : Ends mark rest) : (predicate p (used ++ rest)).Reads c rest := by
  by_cases hne : used = []
  · subst hne
    obtain rfl : c = .truthy p := eq_truthy_of_predicateOf_nil h
    exact reads_predicate_of_ends hends
  · exact reads_of_predicateOf_of_ne_nil h hne rest

theorem reads_pathTest_iff :
    (pathTest ts).Reads c rest ↔
      ∃ p mid, (path .fieldPath ts).Reads p mid ∧ (predicate p mid).Reads c rest := by
  unfold pathTest
  rcases path .fieldPath ts with e | p
  · simp
  · simp only [exists_reads_ok, reads_after]

end Read

end MetadataRules
