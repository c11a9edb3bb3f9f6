/-
MetadataRules/Proofs/Rule/Lookahead.lean

Readers look one token ahead.

What is read off a list depends on the tokens of the phrase and on the one token
behind it, and on nothing else: with other tokens beyond that one the same phrase
is read (`Read.Takes`).  For paths and literals this is part of what is said of
their readers by the grammar.  It is not for conditions, since there the grammar
leaves out what may follow a test without going on with it, so their readers are
gone through one by one (`Read.takes_disjunction`).
-/
import MetadataRules.Proofs.Rule.Fails

namespace MetadataRules

open Grammar Attempt

namespace Read

/-- The same token comes next in both lists, or none in either. -/
def SameNext (ts us : List Placed) : Prop := nextToken? ts = nextToken? us

variable {ts us mid rest : List Placed} {c : Condition} {p : Path}

theorem SameNext.append (h : SameNext ts us) (used : List Placed) :
    SameNext (used ++ ts) (used ++ us) := by
  rcases used with - | ⟨t, used⟩
  · exact h
  · rfl

theorem exists_cons_of_sameNext {t : Placed} (h : SameNext ts (t :: us)) :
    ∃ u behind, ts = u :: behind ∧ u.token = t.token := by
  rcases ts with - | ⟨u, behind⟩
  · cases h
  · exact ⟨u, behind, rfl, Option.some.inj h⟩

/-- What is read leaves `rest` of a list, and leaves what stands in the place of `rest` if that
begins with the same token. -/
inductive Takes (reads : List Placed → List Placed → Prop) (rest : List Placed) :
    List Placed → Prop
  | intro (used : List Placed)
      (h : ∀ rest', SameNext rest' rest → reads (used ++ rest') rest') :
      Takes reads rest (used ++ rest)

section Takes

variable {R R' : List Placed → List Placed → Prop}

theorem Takes.here (h : ∀ rest', SameNext rest' rest → R rest' rest') : Takes R rest rest :=
  .intro [] h

theorem Takes.mono (h : Takes R rest ts)
    (hR : ∀ ts' rest', SameNext ts' ts → R ts' rest' → R' ts' rest') : Takes R' rest ts := by
  obtain ⟨used, h⟩ := h
  exact .intro used fun rest' hrest => hR _ _ (hrest.append used) (h rest' hrest)

/-- Reading on behind a token. -/
theorem Takes.cons (h : Takes R rest ts) (t : Placed) :
    Takes (fun ts rest => ∃ behind, ts = t :: behind ∧ R behind rest) rest (t :: ts) := by
  obtain ⟨used, h⟩ := h
  exact .intro (t :: used) fun rest' hrest => ⟨_, rfl, h rest' hrest⟩

/-- The token behind a phrase is taken with it. -/
theorem Takes.concat {t : Placed} (h : Takes R (t :: rest) ts) :
    Takes (fun ts rest => R ts (t :: rest)) rest ts := by
  obtain ⟨used, h⟩ := h
  have hused : used ++ t :: rest = used ++ [t] ++ rest := by simp
  rw [hused]
  refine .intro (used ++ [t]) fun rest' _ => ?_
  rw [List.append_assoc]
  exact h _ rfl

/-- One reader behind another. -/
theorem Takes.andThen (h : Takes R mid ts) (h' : Takes R' rest mid) :
    Takes (fun ts rest => ∃ mid, R ts mid ∧ R' mid rest) rest ts := by
  obtain ⟨used, h⟩ := h
  obtain ⟨used', h'⟩ := h'
  rw [← List.append_assoc]
  refine .intro (used ++ used') fun rest' hrest => ?_
  rw [List.append_assoc]
  exact ⟨_, h _ (hrest.append used'), h' rest' hrest⟩

end Takes

/-! ### Phrases -/

theorem takes_path {what : Expectation} (h : (path what ts).Reads p rest) :
    Takes (fun ts rest => (path what ts).Reads p rest) rest ts := by
  obtain ⟨used, rfl, hof, hdot⟩ := reads_path_iff.1 h
  exact .intro used fun rest' hrest =>
    reads_path_iff.2 ⟨used, rfl, hof, fun hnext => hdot (hrest.symm.trans hnext)⟩

/-- A test that is opened by a token takes it. -/
theorem length_lt_of_opensTest {t : Placed} (ht : t.token.opensTest = true)
    (h : (predicate p (t :: ts)).Reads c rest) : rest.length < (t :: ts).length := by
  by_cases hasks : asksLiteral t.token = true
  · obtain ⟨what, f, heq⟩ := exists_of_asksLiteral hasks p
    rw [heq, reads_behind, reads_behind, reads_map] at h
    obtain ⟨l, hl, -⟩ := h
    exact Nat.lt_succ_of_lt hl.length_lt
  · have hword : t.token = .keyword .exists_ ∨ t.token = .keyword .not := by
      generalize t.token = u at ht hasks
      unfold Token.opensTest Token.extendsTest at ht
      split at ht <;>
        first | exact absurd rfl hasks | exact .inl rfl | exact .inr rfl | cases ht
    rw [predicate.eq_def] at h
    rcases hword with hword | hword
    · simp only [membership?, hword, comparison?, reads_ok] at h
      rw [← h.2]
      exact Nat.lt_succ_self _
    · have hmember : membership? p (t :: ts) = none :=
        membership?_cons_eq_none hword (by decide) (by decide)
      simp only [hmember, hword, comparison?] at h
      rcases hbehind : membership? p ts with - | reading <;> rw [hbehind] at h <;> dsimp only at h
      · rcases ts with - | ⟨u, beyond⟩ <;> dsimp only at h
        · exact (reads_error _ h).elim
        · split at h
          · simp only [reads_ok] at h
            rw [← h.2]
            exact Nat.lt_succ_of_lt (Nat.lt_succ_self _)
          · exact (reads_error _ h).elim
      · rw [reads_behind, reads_behind, reads_map] at h
        obtain ⟨d, hd, -⟩ := h
        exact Nat.lt_succ_of_lt hd.length_lt

theorem reads_predicate_iff :
    (predicate p ts).Reads c rest ↔
      (nextToken? ts).any Token.opensTest = false ∧ c = .truthy p ∧ ts = rest ∨
      ∃ used, used ≠ [] ∧ ts = used ++ rest ∧ PredicateOf p (Placed.tokens used) c := by
  constructor
  · intro h
    obtain ⟨used, rfl, hof⟩ := predicateOf_of_reads h
    by_cases hne : used = []
    · subst hne
      refine .inl ⟨?_, eq_truthy_of_predicateOf_nil hof, rfl⟩
      rcases rest with - | ⟨t, rest⟩
      · rfl
      · rw [List.nil_append, nextToken?_cons, Option.any_some, Bool.eq_false_iff]
        intro ht
        exact absurd (length_lt_of_opensTest ht h) (Nat.lt_irrefl _)
    · exact .inr ⟨used, hne, rfl, hof⟩
  · rintro (⟨hnext, rfl, rfl⟩ | ⟨used, hne, rfl, hof⟩)
    · exact reads_predicate_of_not_opensTest hnext
    · exact reads_of_predicateOf_of_ne_nil hof hne rest

theorem takes_predicate (h : (predicate p ts).Reads c rest) :
    Takes (fun ts rest => (predicate p ts).Reads c rest) rest ts := by
  rcases reads_predicate_iff.1 h with ⟨hnext, rfl, rfl⟩ | ⟨used, hne, rfl, hof⟩
  · refine .here fun rest' hrest => reads_predicate_iff.2 (.inl ⟨?_, rfl, rfl⟩)
    rw [hrest]
    exact hnext
  · exact .intro used fun rest' _ => reads_of_predicateOf_of_ne_nil hof hne rest'

theorem takes_pathTest (h : (pathTest ts).Reads c rest) :
    Takes (fun ts rest => (pathTest ts).Reads c rest) rest ts := by
  obtain ⟨p, mid, hp, hpredicate⟩ := reads_pathTest_iff.1 h
  exact ((takes_path hp).andThen (takes_predicate hpredicate)).mono
    fun _ _ _ htest => reads_pathTest_iff.2 ⟨p, htest⟩

/-! ### Conditions -/

mutual

theorem takes_disjunction (ts : List Placed) {rest : List Placed} {c : Condition}
    (h : (disjunction ts).Reads c rest) :
    Takes (fun ts rest => (disjunction ts).Reads c rest) rest ts := by
  obtain ⟨left, mid, hleft, horRest⟩ := reads_disjunction_iff.1 h
  have hlt : mid.length < ts.length := hleft.length_lt
  exact ((takes_conjunction ts hleft).andThen (takes_orRest mid horRest)).mono
    fun _ _ _ hboth => reads_disjunction_iff.2 ⟨left, hboth⟩
termination_by 5 * ts.length + 4

theorem takes_orRest (ts : List Placed) {rest : List Placed} {left c : Condition}
    (h : (orRest left ts).Reads c rest) :
    Takes (fun ts rest => (orRest left ts).Reads c rest) rest ts := by
  rcases reads_orRest_iff.1 h with
    ⟨hor, rfl, rfl⟩ | ⟨t, behind, heq, ht, right, mid, hright, horRest⟩
  · exact .here fun rest' hrest => orRest_stops (by rwa [hrest])
  · have hlt : mid.length < behind.length := hright.length_lt
    have hlength : ts.length = behind.length + 1 := by rw [heq, List.length_cons]
    have hboth := (takes_conjunction behind hright).andThen (takes_orRest mid horRest)
    subst heq
    refine (hboth.cons t).mono ?_
    rintro _ _ - ⟨behind, rfl, hboth⟩
    exact reads_orRest_iff.2 (.inr ⟨t, behind, rfl, ht, right, hboth⟩)
termination_by 5 * ts.length + 4

theorem takes_conjunction (ts : List Placed) {rest : List Placed} {c : Condition}
    (h : (conjunction ts).Reads c rest) :
    Takes (fun ts rest => (conjunction ts).Reads c rest) rest ts := by
  obtain ⟨left, mid, hleft, handRest⟩ := reads_conjunction_iff.1 h
  have hlt : mid.length < ts.length := hleft.length_lt
  exact ((takes_unary ts hleft).andThen (takes_andRest mid handRest)).mono
    fun _ _ _ hboth => reads_conjunction_iff.2 ⟨left, hboth⟩
termination_by 5 * ts.length + 3

theorem takes_andRest (ts : List Placed) {rest : List Placed} {left c : Condition}
    (h : (andRest left ts).Reads c rest) :
    Takes (fun ts rest => (andRest left ts).Reads c rest) rest ts := by
  rcases reads_andRest_iff.1 h with
    ⟨hand, rfl, rfl⟩ | ⟨t, behind, heq, ht, right, mid, hright, handRest⟩
  · exact .here fun rest' hrest => andRest_stops (by rwa [hrest])
  · have hlt : mid.length < behind.length := hright.length_lt
    have hlength : ts.length = behind.length + 1 := by rw [heq, List.length_cons]
    have hboth := (takes_unary behind hright).andThen (takes_andRest mid handRest)
    subst heq
    refine (hboth.cons t).mono ?_
    rintro _ _ - ⟨behind, rfl, hboth⟩
    exact reads_andRest_iff.2 (.inr ⟨t, behind, rfl, ht, right, hboth⟩)
termination_by 5 * ts.length + 3

theorem takes_unary (ts : List Placed) {rest : List Placed} {c : Condition}
    (h : (unary ts).Reads c rest) : Takes (fun ts rest => (unary ts).Reads c rest) rest ts := by
  rcases reads_unary_iff.1 h with ⟨hnot, hatom⟩ | ⟨t, behind, rfl, ht,
    ⟨hhas, d, hd, rfl⟩ | ⟨u, beyond, rfl, hu, p, hp, rfl⟩⟩
  · exact (takes_atom ts hatom).mono fun _ _ hsame hatom =>
      reads_unary_iff.2 (.inl ⟨by rwa [hsame], hatom⟩)
  · have hoperand : Takes (fun ts rest => nextToken? ts ≠ some (.keyword .has) ∧
        ∃ d', (unary ts).Reads d' rest ∧ .not d' = d.not) rest behind :=
      (takes_unary behind hd).mono fun _ _ hsame hd => ⟨by rwa [hsame], d, hd, rfl⟩
    refine (hoperand.cons t).mono ?_
    rintro _ _ - ⟨behind, rfl, hoperand⟩
    exact reads_unary_iff.2 (.inr ⟨t, behind, rfl, ht, .inl hoperand⟩)
  · refine (((takes_path hp).cons u).cons t).mono ?_
    rintro _ _ - ⟨_, rfl, beyond, rfl, hp⟩
    exact reads_unary_iff.2 (.inr ⟨t, _, rfl, ht, .inr ⟨u, beyond, rfl, hu, p, hp, rfl⟩⟩)
termination_by 5 * ts.length + 2

theorem takes_atom : ∀ (ts : List Placed) {rest : List Placed} {c : Condition},
    (atom ts).Reads c rest → Takes (fun ts rest => (atom ts).Reads c rest) rest ts
  | [], _, _, h => by
    rw [atom] at h
    exact (reads_error _ h).elim
  | t :: ts, _, _, h => by
    rcases reads_atom_cons.1 h with ⟨ht, close, hclose, hinner⟩ | ⟨ht, p, hp, rfl⟩ |
      ⟨ht, p, behind, hp, mid, hwhere, d, hd, rfl⟩ | ⟨⟨s, hs⟩, htest⟩
    · refine ((takes_disjunction ts hinner).concat.cons t).mono ?_
      rintro _ _ - ⟨_, rfl, hinner⟩
      exact reads_atom_cons.2 (.inl ⟨ht, close, hclose, hinner⟩)
    · refine ((takes_path hp).cons t).mono ?_
      rintro _ _ - ⟨_, rfl, hp⟩
      exact reads_atom_cons.2 (.inr (.inl ⟨ht, p, hp, rfl⟩))
    · obtain ⟨w, rfl, hw⟩ := reads_keyword_iff.1 hwhere
      have hlt : mid.length + 1 < ts.length := hp.length_lt
      refine (((takes_path hp).andThen ((takes_disjunction mid hd).cons w)).cons t).mono ?_
      rintro _ _ - ⟨_, rfl, _, hp, mid, rfl, hd⟩
      exact reads_atom_cons.2 (.inr (.inr (.inl ⟨ht, p, _, hp, mid,
        reads_keyword_iff.2 ⟨w, rfl, hw⟩, d, hd, rfl⟩)))
    · refine (takes_pathTest htest).mono fun ts' _ hsame htest => ?_
      obtain ⟨u, behind, rfl, hu⟩ := exists_cons_of_sameNext hsame
      exact reads_atom_cons.2 (.inr (.inr (.inr ⟨⟨s, hu ▸ hs⟩, htest⟩)))
termination_by ts => 5 * ts.length + 1

end

end Read

end MetadataRules
