/-
MetadataRules/Proofs/Rule/Condition.lean

The readers of conditions and the grammar.

Both directions are mutual inductions, one lemma for each reader.  What is read
as a condition is one (`Read.disjunctionOf_of_reads`), by induction on the
tokens.  A condition is read as itself when what follows does not go on with it
(`Read.reads_of_disjunctionOf`), by induction on its derivation; the readers
loop behind their left operand, so that lemma is about the loop that comes after
a phrase.

Where nothing follows, the two together say that a text is a condition of the
grammar exactly when it is read as that condition (`Condition.ofText_iff_conditionOf`).
-/
import MetadataRules.Proofs.Rule.Predicate

namespace MetadataRules

open Grammar Attempt

namespace Read

variable {ts rest : List Placed} {c : Condition} {p : Path} {mark : Bool}

/-! ### What each reader of conditions takes -/

theorem reads_presence_iff {what : Expectation} {negated : Bool} :
    (presence what negated ts).Reads c rest ↔
      ∃ p, (path what ts).Reads p rest ∧ .present p negated = c := by
  rw [presence, reads_map]

theorem reads_disjunction_iff :
    (disjunction ts).Reads c rest ↔
      ∃ left mid, (conjunction ts).Reads left mid ∧ (orRest left mid).Reads c rest := by
  rw [disjunction]
  rcases conjunction ts with e | left
  · simp
  · simp only [exists_reads_ok, reads_after]

theorem reads_orRest_iff {left : Condition} :
    (orRest left ts).Reads c rest ↔
      (nextToken? ts ≠ some (.keyword .or) ∧ left = c ∧ ts = rest) ∨
      ∃ t behind, ts = t :: behind ∧ t.token = .keyword .or ∧
        ∃ right mid, (conjunction behind).Reads right mid ∧
          (orRest (.or left right) mid).Reads c rest := by
  rcases ts with - | ⟨t, behind⟩ <;> rw [orRest]
  · simp
  · by_cases ht : t.token = .keyword .or
    · rcases hright : conjunction behind with e | right
      · simp [ht, hright]
      · simp [ht, hright]
    · simp [ht]

theorem reads_conjunction_iff :
    (conjunction ts).Reads c rest ↔
      ∃ left mid, (unary ts).Reads left mid ∧ (andRest left mid).Reads c rest := by
  rw [conjunction]
  rcases unary ts with e | left
  · simp
  · simp only [exists_reads_ok, reads_after]

theorem reads_andRest_iff {left : Condition} :
    (andRest left ts).Reads c rest ↔
      (nextToken? ts ≠ some (.keyword .and) ∧ left = c ∧ ts = rest) ∨
      ∃ t behind, ts = t :: behind ∧ t.token = .keyword .and ∧
        ∃ right mid, (unary behind).Reads right mid ∧
          (andRest (.and left right) mid).Reads c rest := by
  rcases ts with - | ⟨t, behind⟩ <;> rw [andRest]
  · simp
  · by_cases ht : t.token = .keyword .and
    · rcases hright : unary behind with e | right
      · simp [ht, hright]
      · simp [ht, hright]
    · simp [ht]

theorem reads_unary_iff :
    (unary ts).Reads c rest ↔
      (nextToken? ts ≠ some (.keyword .not) ∧ (atom ts).Reads c rest) ∨
      ∃ t behind, ts = t :: behind ∧ t.token = .keyword .not ∧
        ((nextToken? behind ≠ some (.keyword .has) ∧
            ∃ d, (unary behind).Reads d rest ∧ .not d = c) ∨
          ∃ u beyond, behind = u :: beyond ∧ u.token = .keyword .has ∧
            ∃ p, (path .pathAfterNotHas beyond).Reads p rest ∧ .present p true = c) := by
  rcases ts with - | ⟨t, behind⟩ <;> rw [unary.eq_def]
  · simp
  · by_cases ht : t.token = .keyword .not
    · rcases behind with - | ⟨u, beyond⟩
      · simp [ht]
      · by_cases hu : u.token = .keyword .has
        · simp [ht, hu, reads_presence_iff]
        · simp [ht, hu]
    · simp [ht]

theorem reads_atom_cons {t : Placed} :
    (atom (t :: ts)).Reads c rest ↔
      (t.token = .leftParen ∧
        ∃ close, close.token = .rightParen ∧ (disjunction ts).Reads c (close :: rest)) ∨
      (t.token = .keyword .has ∧
        ∃ p, (path .pathAfterHas ts).Reads p rest ∧ .present p false = c) ∨
      (t.token = .keyword .any ∧
        ∃ p behind, (path .pathAfterAny ts).Reads p behind ∧
          ∃ mid, (keyword .where_ (.whereAfterAny p) behind).Reads () mid ∧
            ∃ d, (disjunction mid).Reads d rest ∧ .anyElement p d = c) ∨
      ((∃ s, FirstOf t.token s) ∧ (pathTest (t :: ts)).Reads c rest) := by
  simp only [← firstSegment?_eq_some_iff]
  rw [atom]
  split
  case h_1 ht =>
    rcases hinner : disjunction ts with e | inner
    · simp [ht, firstSegment?]
    · dsimp only
      split
      · simp [*, firstSegment?]
      · rename_i u behind hrest
        by_cases hu : u.token = .rightParen <;> simp [ht, hu, hrest, firstSegment?]
  case h_2 ht => simp [ht, firstSegment?, reads_presence_iff]
  case h_3 ht =>
    rcases hp : path .pathAfterAny ts with e | p
    · simp [ht, firstSegment?]
    · simp only [exists_reads_ok]
      rcases hw : keyword .where_ (.whereAfterAny p.value) p.rest with e | w
      · simp [ht, firstSegment?]
      · simp [ht, firstSegment?]
  case h_4 ht => simp [ht, firstSegment?]
  case h_5 ht => simp [ht, firstSegment?]
  case h_6 ht => simp [ht, firstSegment?]
  case h_7 hparen hhas hany hname hquoted hcurrent =>
    have hfirst : firstSegment? t.token = none := by
      unfold firstSegment?
      split <;> simp_all
    simp [hfirst, eq_false hparen, eq_false hhas, eq_false hany]

/-! ### What is read is a condition -/

theorem andRest_stops (h : nextToken? ts ≠ some (.keyword .and)) : (andRest c ts).Reads c ts :=
  reads_andRest_iff.2 (.inl ⟨h, rfl, rfl⟩)

theorem orRest_stops (h : nextToken? ts ≠ some (.keyword .or)) : (orRest c ts).Reads c ts :=
  reads_orRest_iff.2 (.inl ⟨h, rfl, rfl⟩)

mutual

/-- What is read as a condition is one, and nothing joins on to it. -/
theorem disjunctionOf_of_reads (ts : List Placed) {rest : List Placed} {c : Condition}
    (h : (disjunction ts).Reads c rest) :
    ∃ used mark, ts = used ++ rest ∧ DisjunctionOf mark (Placed.tokens used) c ∧ Apart rest := by
  obtain ⟨left, mid, hleft, horRest⟩ := reads_disjunction_iff.1 h
  have hlt : mid.length < ts.length := hleft.length_lt
  obtain ⟨used, mark, rfl, hof, hand, hapart⟩ := conjunctionOf_of_reads ts hleft
  obtain ⟨used', mark, rfl, hof', hrest⟩ :=
    disjunctionOf_of_orRest mid used (.single hof) hand hapart horRest
  exact ⟨used ++ used', mark, by simp, hof', hrest⟩
termination_by 5 * ts.length + 4

/-- Reading on behind a condition reads a longer one. -/
theorem disjunctionOf_of_orRest (ts used : List Placed) {rest : List Placed} {left c : Condition}
    {mark : Bool} (hof : DisjunctionOf mark (Placed.tokens used) left)
    (hand : nextToken? ts ≠ some (.keyword .and)) (hapart : mark = true → Apart ts)
    (h : (orRest left ts).Reads c rest) :
    ∃ used' mark, ts = used' ++ rest ∧ DisjunctionOf mark (Placed.tokens (used ++ used')) c ∧
      Apart rest := by
  rcases reads_orRest_iff.1 h with
    ⟨hor, rfl, rfl⟩ | ⟨t, behind, rfl, ht, right, mid, hright, horRest⟩
  · exact ⟨[], mark, rfl, by simpa using hof, apart_of_ne hand hor⟩
  · have hlt : mid.length < behind.length := hright.length_lt
    -- a left operand that is followed by a word that joins ends in no open `ANY`
    have hmark : mark = false := mark_eq_false hapart (congrArg some ht) rfl
    obtain ⟨used₁, mark₁, rfl, hof₁, hand₁, hapart₁⟩ := conjunctionOf_of_reads behind hright
    have hjoined := DisjunctionOf.or (hmark ▸ hof) hof₁
    obtain ⟨used₂, mark₂, rfl, hof₂, hrest⟩ := disjunctionOf_of_orRest mid
      (used ++ t :: used₁) (by simpa [ht] using hjoined) hand₁ hapart₁ horRest
    exact ⟨t :: (used₁ ++ used₂), mark₂, by simp, by simpa using hof₂, hrest⟩
termination_by 5 * ts.length + 4

theorem conjunctionOf_of_reads (ts : List Placed) {rest : List Placed} {c : Condition}
    (h : (conjunction ts).Reads c rest) :
    ∃ used mark, ts = used ++ rest ∧ ConjunctionOf mark (Placed.tokens used) c ∧
      nextToken? rest ≠ some (.keyword .and) ∧ (mark = true → Apart rest) := by
  obtain ⟨left, mid, hleft, handRest⟩ := reads_conjunction_iff.1 h
  have hlt : mid.length < ts.length := hleft.length_lt
  obtain ⟨used, mark, rfl, hof, hapart⟩ := unaryOf_of_reads ts hleft
  obtain ⟨used', mark, rfl, hof', hrest⟩ :=
    conjunctionOf_of_andRest mid used (.single hof) hapart handRest
  exact ⟨used ++ used', mark, by simp, hof', hrest⟩
termination_by 5 * ts.length + 3

theorem conjunctionOf_of_andRest (ts used : List Placed) {rest : List Placed}
    {left c : Condition} {mark : Bool} (hof : ConjunctionOf mark (Placed.tokens used) left)
    (hapart : mark = true → Apart ts) (h : (andRest left ts).Reads c rest) :
    ∃ used' mark, ts = used' ++ rest ∧ ConjunctionOf mark (Placed.tokens (used ++ used')) c ∧
      nextToken? rest ≠ some (.keyword .and) ∧ (mark = true → Apart rest) := by
  rcases reads_andRest_iff.1 h with
    ⟨hand, rfl, rfl⟩ | ⟨t, behind, rfl, ht, right, mid, hright, handRest⟩
  · exact ⟨[], mark, rfl, by simpa using hof, hand, hapart⟩
  · have hlt : mid.length < behind.length := hright.length_lt
    have hmark : mark = false := mark_eq_false hapart (congrArg some ht) rfl
    obtain ⟨used₁, mark₁, rfl, hof₁, hapart₁⟩ := unaryOf_of_reads behind hright
    have hjoined := ConjunctionOf.and (hmark ▸ hof) hof₁
    obtain ⟨used₂, mark₂, rfl, hof₂, hrest⟩ := conjunctionOf_of_andRest mid
      (used ++ t :: used₁) (by simpa [ht] using hjoined) hapart₁ handRest
    exact ⟨t :: (used₁ ++ used₂), mark₂, by simp, by simpa using hof₂, hrest⟩
termination_by 5 * ts.length + 3

theorem unaryOf_of_reads (ts : List Placed) {rest : List Placed} {c : Condition}
    (h : (unary ts).Reads c rest) :
    ∃ used mark, ts = used ++ rest ∧ UnaryOf mark (Placed.tokens used) c ∧
      (mark = true → Apart rest) := by
  rcases reads_unary_iff.1 h with ⟨-, hatom⟩ | ⟨t, behind, rfl, ht,
    ⟨hhas, d, hd, rfl⟩ | ⟨u, beyond, rfl, hu, p, hp, rfl⟩⟩
  · obtain ⟨used, mark, heq, hof, hrest⟩ := atomOf_of_reads ts hatom
    exact ⟨used, mark, heq, .atom hof, hrest⟩
  · obtain ⟨used, mark, rfl, hof, hrest⟩ := unaryOf_of_reads behind hd
    refine ⟨t :: used, mark, rfl, ?_, hrest⟩
    -- `NOT HAS` is read as one test, so the operand of this `NOT` begins with another word
    have hhead : (Placed.tokens used).head? ≠ some (.keyword .has) := by
      cases used with
      | nil => exact nofun
      | cons u used => exact hhas
    simpa [ht] using UnaryOf.not hhead hof
  · obtain ⟨used, rfl, hof, -⟩ := reads_path_iff.1 hp
    exact ⟨t :: u :: used, false, rfl, by simpa [ht, hu] using UnaryOf.notHas hof, nofun⟩
termination_by 5 * ts.length + 2

theorem atomOf_of_reads : ∀ (ts : List Placed) {rest : List Placed} {c : Condition},
    (atom ts).Reads c rest → ∃ used mark, ts = used ++ rest ∧
      AtomOf mark (Placed.tokens used) c ∧ (mark = true → Apart rest)
  | [], _, _, h => by
    rw [atom] at h
    exact (reads_error _ h).elim
  | t :: ts, _, _, h => by
    rcases reads_atom_cons.1 h with ⟨ht, close, hclose, hinner⟩ | ⟨ht, p, hp, rfl⟩ |
      ⟨ht, p, behind, hp, mid, hwhere, d, hd, rfl⟩ | ⟨-, htest⟩
    · obtain ⟨used, mark, rfl, hof, -⟩ := disjunctionOf_of_reads ts hinner
      -- an `ANY` inside parentheses ends there, whatever follows them
      refine ⟨t :: (used ++ [close]), false, by simp, ?_, nofun⟩
      simpa [ht, hclose] using AtomOf.paren hof
    · obtain ⟨used, rfl, hof, -⟩ := reads_path_iff.1 hp
      exact ⟨t :: used, false, rfl, by simpa [ht] using AtomOf.has hof, nofun⟩
    · have hlt : behind.length < ts.length := hp.length_lt
      obtain ⟨used, rfl, hof, -⟩ := reads_path_iff.1 hp
      obtain ⟨w, rfl, hw⟩ := reads_keyword_iff.1 hwhere
      obtain ⟨used', mark, rfl, hbody, hrest⟩ := disjunctionOf_of_reads mid hd
      refine ⟨t :: (used ++ w :: used'), true, by simp, ?_, fun _ => hrest⟩
      simpa [ht, hw] using AtomOf.any hof hbody
    · obtain ⟨p, mid, hp, hpredicate⟩ := reads_pathTest_iff.1 htest
      obtain ⟨used, heq, hof, -⟩ := reads_path_iff.1 hp
      obtain ⟨used', rfl, hof'⟩ := predicateOf_of_reads hpredicate
      exact ⟨used ++ used', false, by simp [heq], by simpa using AtomOf.test hof hof', nofun⟩
termination_by ts => 5 * ts.length + 1

end

/-! ### A condition is read as itself -/

theorem ne_dot_of_predicateOf {w : List Token} (h : PredicateOf p w c) : w.head? ≠ some .dot := by
  cases h with
  | compare hop h => cases hop <;> exact nofun
  | member h => cases h <;> exact nofun
  | _ => exact nofun

/-- A test that stands by itself does not begin with `NOT`. -/
theorem exists_of_atomOf {w : List Token} (h : AtomOf mark w c) :
    ∃ t v, w = t :: v ∧ t ≠ .keyword .not := by
  cases h with
  | test hp h =>
    obtain ⟨hs, -⟩ := hp
    refine ⟨_, _, rfl, ?_⟩
    rintro rfl
    cases hs
  | _ => exact ⟨_, _, rfl, nofun⟩

theorem ne_nil_of_unaryOf {w : List Token} (h : UnaryOf mark w c) : w ≠ [] := by
  cases h with
  | atom h =>
    obtain ⟨t, v, rfl, -⟩ := exists_of_atomOf h
    exact nofun
  | _ => exact nofun

mutual

/-- A condition is read, and then reading goes on behind it. -/
theorem reads_of_disjunctionOf : ∀ {mark : Bool} {w : List Token} {c : Condition},
    DisjunctionOf mark w c → ∀ used rest, Placed.tokens used = w → Ends mark rest →
      nextToken? rest ≠ some (.keyword .and) → ∀ {c' rest'},
        (orRest c rest).Reads c' rest' → (disjunction (used ++ rest)).Reads c' rest'
  | _, _, _, .single h, used, rest, hw, hends, hand, _, _, horRest =>
    reads_disjunction_iff.2
      ⟨_, _, reads_of_conjunctionOf h used rest hw hends (andRest_stops hand), horRest⟩
  | _, _, _, .or hleft hright, used, rest, hw, hends, hand, _, _, horRest => by
    obtain ⟨used, behind, rfl, hused, hbehind⟩ := List.map_eq_append_iff.1 hw
    obtain ⟨t, used', rfl, ht, hused'⟩ := List.map_eq_cons_iff.1 hbehind
    have hread := reads_of_conjunctionOf hright used' rest hused' hends (andRest_stops hand)
    rw [List.append_assoc]
    -- the left operand is read first, and the loop behind it meets this `OR`
    refine reads_of_disjunctionOf hleft used _ hused (ends_cons ?_ nofun) ?_ ?_
    · rw [ht]
      rfl
    · show some t.token ≠ some (.keyword .and)
      rw [ht]
      exact nofun
    · exact reads_orRest_iff.2 (.inr ⟨t, _, rfl, ht, _, _, hread, horRest⟩)

theorem reads_of_conjunctionOf : ∀ {mark : Bool} {w : List Token} {c : Condition},
    ConjunctionOf mark w c → ∀ used rest, Placed.tokens used = w → Ends mark rest →
      ∀ {c' rest'}, (andRest c rest).Reads c' rest' → (conjunction (used ++ rest)).Reads c' rest'
  | _, _, _, .single h, used, rest, hw, hends, _, _, handRest =>
    reads_conjunction_iff.2 ⟨_, _, reads_of_unaryOf h used rest hw hends, handRest⟩
  | _, _, _, .and hleft hright, used, rest, hw, hends, _, _, handRest => by
    obtain ⟨used, behind, rfl, hused, hbehind⟩ := List.map_eq_append_iff.1 hw
    obtain ⟨t, used', rfl, ht, hused'⟩ := List.map_eq_cons_iff.1 hbehind
    have hread := reads_of_unaryOf hright used' rest hused' hends
    rw [List.append_assoc]
    refine reads_of_conjunctionOf hleft used _ hused (ends_cons ?_ nofun) ?_
    · rw [ht]
      rfl
    · exact reads_andRest_iff.2 (.inr ⟨t, _, rfl, ht, _, _, hread, handRest⟩)

theorem reads_of_unaryOf : ∀ {mark : Bool} {w : List Token} {c : Condition},
    UnaryOf mark w c → ∀ used rest, Placed.tokens used = w → Ends mark rest →
      (unary (used ++ rest)).Reads c rest
  | _, _, _, .notHas hp, used, rest, hw, hends => by
    obtain ⟨t, used, rfl, ht, htail⟩ := List.map_eq_cons_iff.1 hw
    obtain ⟨u, used, rfl, hu, rfl⟩ := List.map_eq_cons_iff.1 htail
    have hpath : (path .pathAfterNotHas (used ++ rest)).Reads _ rest :=
      reads_path_iff.2 ⟨used, rfl, hp, hends.ne rfl⟩
    exact reads_unary_iff.2 (.inr ⟨t, _, rfl, ht, .inr ⟨u, _, rfl, hu, _, hpath, rfl⟩⟩)
  | _, _, _, .not hhead h, used, rest, hw, hends => by
    obtain ⟨t, used, rfl, ht, hused⟩ := List.map_eq_cons_iff.1 hw
    have hread := reads_of_unaryOf h used rest hused hends
    have hnext : nextToken? (used ++ rest) ≠ some (.keyword .has) := by
      rcases used with - | ⟨u, used⟩
      · exact absurd hused.symm (ne_nil_of_unaryOf h)
      · rw [← hused] at hhead
        exact hhead
    exact reads_unary_iff.2 (.inr ⟨t, _, rfl, ht, .inl ⟨hnext, _, hread, rfl⟩⟩)
  | _, _, _, .atom h, used, rest, hw, hends => by
    have hread := reads_of_atomOf h used rest hw hends
    obtain ⟨t, v, rfl, hne⟩ := exists_of_atomOf h
    obtain ⟨t, used, rfl, rfl, -⟩ := List.map_eq_cons_iff.1 hw
    refine reads_unary_iff.2 (.inl ⟨?_, hread⟩)
    rw [List.cons_append, nextToken?_cons]
    exact fun heq => hne (Option.some.inj heq)

theorem reads_of_atomOf : ∀ {mark : Bool} {w : List Token} {c : Condition},
    AtomOf mark w c → ∀ used rest, Placed.tokens used = w → Ends mark rest →
      (atom (used ++ rest)).Reads c rest
  | _, _, _, .paren h, used, rest, hw, hends => by
    obtain ⟨t, used, rfl, ht, htail⟩ := List.map_eq_cons_iff.1 hw
    obtain ⟨used, behind, rfl, hused, hbehind⟩ := List.map_eq_append_iff.1 htail
    obtain ⟨close, rfl, hclose⟩ := List.map_eq_singleton_iff.1 hbehind
    have hne : ∀ kw, nextToken? (close :: rest) ≠ some (.keyword kw) := by
      rw [nextToken?_cons, hclose]
      exact fun _ => nofun
    have hread := reads_of_disjunctionOf h used (close :: rest) hused
      (ends_cons (by rw [hclose]; rfl) fun _ => by rw [hclose]; rfl) (hne _)
      (orRest_stops (hne _))
    rw [List.cons_append, List.append_assoc]
    exact reads_atom_cons.2 (.inl ⟨ht, close, hclose, hread⟩)
  | _, _, _, .has hp, used, rest, hw, hends => by
    obtain ⟨t, used, rfl, ht, rfl⟩ := List.map_eq_cons_iff.1 hw
    have hpath : (path .pathAfterHas (used ++ rest)).Reads _ rest :=
      reads_path_iff.2 ⟨used, rfl, hp, hends.ne rfl⟩
    exact reads_atom_cons.2 (.inr (.inl ⟨ht, _, hpath, rfl⟩))
  | _, _, _, .any hp h, used, rest, hw, hends => by
    obtain ⟨front, behind, rfl, hfront, hbehind⟩ := List.map_eq_append_iff.1 hw
    obtain ⟨t, used, rfl, ht, rfl⟩ := List.map_eq_cons_iff.1 hfront
    obtain ⟨w, used', rfl, hwhere, hused'⟩ := List.map_eq_cons_iff.1 hbehind
    have hdot : nextToken? (w :: used' ++ rest) ≠ some .dot := by
      rw [List.cons_append, nextToken?_cons, hwhere]
      exact nofun
    have hpath : (path .pathAfterAny (used ++ (w :: used' ++ rest))).Reads _ _ :=
      reads_path_iff.2 ⟨used, rfl, hp, hdot⟩
    -- the body goes as far as it can, so what follows the `ANY` must not go on with it
    have hbody := reads_of_disjunctionOf h used' rest hused' hends.of_true
      ((hends.apart rfl).ne rfl) (orRest_stops ((hends.apart rfl).ne rfl))
    rw [List.cons_append, List.cons_append, List.append_assoc]
    exact reads_atom_cons.2 (.inr (.inr (.inl ⟨ht, _, _, hpath, _,
      reads_keyword_iff.2 ⟨w, rfl, hwhere⟩, _, hbody, rfl⟩)))
  | _, _, _, .test hp h, used, rest, hw, hends => by
    obtain ⟨used, used', rfl, rfl, rfl⟩ := List.map_eq_append_iff.1 hw
    have hdot : nextToken? (used' ++ rest) ≠ some .dot := by
      rcases used' with - | ⟨t, used'⟩
      · exact hends.ne rfl
      · exact ne_dot_of_predicateOf h
    have htest := reads_pathTest_iff.2 ⟨_, _, reads_path_iff.2 ⟨used, rfl, hp, hdot⟩,
      reads_of_predicateOf h hends⟩
    obtain ⟨t, used, rfl, hs⟩ := exists_of_pathOf hp
    rw [List.append_assoc]
    exact reads_atom_cons.2 (.inr (.inr (.inr ⟨hs, htest⟩)))

end

/-- What is read as a condition is one; what follows it does not matter here. -/
theorem conditionOf_of_reads (h : (disjunction ts).Reads c rest) :
    ∃ used, ts = used ++ rest ∧ ConditionOf (Placed.tokens used) c := by
  obtain ⟨used, mark, heq, hof, -⟩ := disjunctionOf_of_reads ts h
  exact ⟨used, heq, mark, hof⟩

/-- A condition is read as itself where what follows can go on with no condition. -/
theorem reads_of_conditionOf {used : List Placed} (h : ConditionOf (Placed.tokens used) c)
    (hends : Ends true rest) : (disjunction (used ++ rest)).Reads c rest := by
  obtain ⟨mark, hof⟩ := h
  have hapart := hends.apart rfl
  exact reads_of_disjunctionOf hof used rest rfl hends.of_true (hapart.ne rfl)
    (orRest_stops (hapart.ne rfl))

/-- The reader of whole conditions accepts what the reader of conditions reads to the end. -/
theorem wholeCondition_eq_ok_iff : wholeCondition ts = .ok c ↔ (disjunction ts).Reads c [] := by
  rcases ts with - | ⟨t, behind⟩
  · refine iff_of_false nofun fun h => ?_
    exact absurd h.length_lt (Nat.lt_irrefl 0)
  · rw [wholeCondition]
    rcases disjunction (t :: behind) with e | p
    · simp
    · rw [reads_ok]
      dsimp only
      split <;> simp [*]

end Read

/-- **A text is read as a condition exactly when its tokens are that condition** by the grammar. -/
theorem Condition.ofText_iff_conditionOf {text : String} {scan : Scan}
    (h : tokenize text = .ok scan) (c : Condition) :
    Condition.ofText text = .ok c ↔ ConditionOf (Placed.tokens scan.tokens) c := by
  have htext : Condition.ofText text = .ok c ↔ Read.wholeCondition scan.tokens = .ok c := by
    rw [Condition.ofText, readText, h]
    dsimp only
    split <;> simp [*]
  rw [htext, Read.wholeCondition_eq_ok_iff]
  constructor
  · intro hread
    obtain ⟨used, heq, hof⟩ := Read.conditionOf_of_reads hread
    rw [heq, List.append_nil]
    exact hof
  · intro hof
    rw [← List.append_nil scan.tokens]
    exact Read.reads_of_conditionOf hof Read.ends_nil

/-- The body of `ANY` takes the `AND` with it, and a list may end in a comma. -/
theorem Condition.ofText_iff_conditionOf_any :
    ConditionOf [.keyword .any, .identifier "a", .keyword .where_, .keyword .not, .identifier "b",
        .dot, .keyword .in_, .keyword .in_, .leftBracket, .string "x", .comma, .rightBracket,
        .keyword .and, .identifier "c"]
      (.anyElement ⟨[.key "a"]⟩
        (.and (.not (.oneOf ⟨[.key "b", .key "IN"]⟩ [.string "x"])) (.truthy ⟨[.key "c"]⟩))) := by
  have h : tokenize "ANY a WHERE NOT b.IN IN ['x',] AND c" = .ok
      ⟨[⟨.keyword .any, 0⟩, ⟨.identifier "a", 4⟩, ⟨.keyword .where_, 6⟩, ⟨.keyword .not, 12⟩,
        ⟨.identifier "b", 16⟩, ⟨.dot, 17⟩, ⟨.keyword .in_, 18⟩, ⟨.keyword .in_, 21⟩,
        ⟨.leftBracket, 24⟩, ⟨.string "x", 25⟩, ⟨.comma, 28⟩, ⟨.rightBracket, 29⟩,
        ⟨.keyword .and, 31⟩, ⟨.identifier "c", 35⟩], 36⟩ := by
    decide +kernel
  exact (Condition.ofText_iff_conditionOf h _).1 (by decide +kernel)

end MetadataRules
