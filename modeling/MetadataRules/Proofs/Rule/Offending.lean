/-
MetadataRules/Proofs/Rule/Offending.lean

The place of a syntax error.

A text of tokens that is read as no condition is reported at its first token
that no condition goes on with: the tokens in front of it begin a condition, and
with it they begin none (`Condition.offset_of_rejected`).  There is one
exception, a `NOT` behind a path, which is reported itself if the word behind it
is not one that it can negate.

Where a reader breaks off was said of tokens; here it is said of texts.  The tokens
that were read can be written one by one, and so can the ones that complete them
(`isBeginning_of_completes`).
-/
import MetadataRules.Proofs.Rule.Breaks
import MetadataRules.Proofs.Rule.Embedded
import MetadataRules.Proofs.Token.Single

namespace MetadataRules

open Grammar Read

variable {w : List Token}

/-! ### Texts from tokens -/

/-- The tokens, all of them, are those of a text that is read as a condition. -/
def IsAccepted (w : List Token) : Prop :=
  ∃ text c, Spells text w ∧ Condition.ofText text = .ok c

/-- The tokens are the first ones of a text that is read as a condition. -/
def IsBeginning (w : List Token) : Prop := ∃ v, IsAccepted (w ++ v)

theorem Lexer.IsSingle.exists_spells {t : Token} (h : Lexer.IsSingle t) : ∃ s, Spells s [t] := by
  obtain ⟨text, h⟩ := h
  refine ⟨String.ofList text, spells_iff_scans.2 ?_⟩
  rw [String.toList_ofList]
  exact h.scans (Lexer.scans_nil.2 rfl)

/-- **Tokens that can be written one by one can be written together.** -/
theorem exists_spells (h : ∀ t ∈ w, Lexer.IsSingle t) : ∃ s, Spells s w := by
  induction w with
  | nil => exact ⟨"", spells_iff_scans.2 (Lexer.scans_nil.2 rfl)⟩
  | cons t w ih =>
    obtain ⟨ht, hw⟩ := List.forall_mem_cons.1 h
    obtain ⟨a, ha⟩ := ht.exists_spells
    obtain ⟨b, hb⟩ := ih hw
    exact ⟨_, ha.append hb⟩

theorem IsAccepted.isDisjunction (h : IsAccepted w) : IsDisjunction w := by
  obtain ⟨text, c, ⟨scan, hscan, rfl⟩, hc⟩ := h
  obtain ⟨mark, hof⟩ := (Condition.ofText_iff_conditionOf hscan c).1 hc
  exact ⟨mark, c, hof⟩

theorem isAccepted_of_isDisjunction (hw : ∀ t ∈ w, Lexer.IsSingle t) (h : IsDisjunction w) :
    IsAccepted w := by
  obtain ⟨text, htext⟩ := exists_spells hw
  obtain ⟨mark, c, hof⟩ := h
  exact ⟨text, c, htext, Condition.ofText_of_spells htext ⟨mark, hof⟩⟩

theorem isSingle_of_tokenize {text : String} {scan : Scan} (h : tokenize text = .ok scan) :
    ∀ t ∈ Placed.tokens scan.tokens, Lexer.IsSingle t :=
  Lexer.isSingle_of_scanFrom h

theorem isSingle_of_mem_fillers {t : Token} (h : t ∈ fillers) : Lexer.IsSingle t := by
  have hscan : tokenize "x null ] \x7d ) : WHERE EXISTS" = .ok
      ⟨[⟨.identifier "x", 0⟩, ⟨.null, 2⟩, ⟨.rightBracket, 7⟩, ⟨.rightBrace, 9⟩, ⟨.rightParen, 11⟩,
        ⟨.colon, 13⟩, ⟨.keyword .where_, 15⟩, ⟨.keyword .exists_, 21⟩], 27⟩ := by
    decide +kernel
  exact isSingle_of_tokenize hscan t h

/-- Tokens that are completed to a condition begin one. -/
theorem isBeginning_of_completes (hw : ∀ t ∈ w, Lexer.IsSingle t)
    (h : Completes IsDisjunction w) : IsBeginning w := by
  obtain ⟨v, hv, h⟩ := h
  refine ⟨v, isAccepted_of_isDisjunction (fun t ht => ?_) h⟩
  rcases List.mem_append.1 ht with ht | ht
  · exact hw t ht
  · exact isSingle_of_mem_fillers (hv ht)

/-- What is accepted is not complained about. -/
theorem Read.not_failsAt_wholeCondition {ts place : List Placed}
    (h : IsAccepted (Placed.tokens ts)) : ¬ FailsAt (wholeCondition ts) place := by
  obtain ⟨mark, c, hof⟩ := h.isDisjunction
  have hread : (disjunction ts).Reads c [] := by
    rw [← List.append_nil ts]
    exact reads_of_conditionOf ⟨mark, hof⟩ ends_nil
  rw [wholeCondition_eq_ok_iff.2 hread]
  exact Attempt.failsAt_ok

/-! ### The first token that does not fit -/

/-- The token behind `before` is the first one that does not fit: the tokens in front of it begin
a condition and with it they begin none.  Behind all tokens, they are no condition by themselves. -/
structure Offends (before rest : List Placed) : Prop where
  isBeginning : IsBeginning (Placed.tokens before)
  next : ∀ t, nextToken? rest = some t → ¬ IsBeginning (Placed.tokens before ++ [t])
  finish : rest = [] → ¬ IsAccepted (Placed.tokens before)

theorem IsBeginning.of_append {u v : List Token} (h : IsBeginning (u ++ v)) : IsBeginning u := by
  obtain ⟨x, h⟩ := h
  exact ⟨v ++ x, by rwa [← List.append_assoc]⟩

/-- Only one token is the first that does not fit. -/
theorem Offends.eq {before rest before' rest' : List Placed} (h : Offends before rest)
    (h' : Offends before' rest') (heq : before ++ rest = before' ++ rest') : before = before' := by
  -- with one token more than the shorter list of the two no condition begins
  have hmax : ∀ {before rest mid rest' : List Placed}, Offends before rest → rest = mid ++ rest' →
      Offends (before ++ mid) rest' → mid = [] := by
    rintro before _ (- | ⟨t, mid⟩) rest' h rfl h'
    · rfl
    · have hbeginning := h'.isBeginning
      rw [List.append_cons, Placed.tokens, List.map_append, List.map_append] at hbeginning
      exact absurd hbeginning.of_append (h.next t.token rfl)
  rcases List.append_eq_append_iff.1 heq with ⟨mid, rfl, hrest⟩ | ⟨mid, rfl, hrest⟩
  · rw [hmax h hrest h', List.append_nil]
  · rw [hmax h' hrest h, List.append_nil]

/-- Where the reader is stuck, no condition goes on. -/
theorem offends_of_stuck {before rest : List Placed} (hbefore : IsBeginning (Placed.tokens before))
    (hstuck : ∀ other, SameNext other rest →
      ∃ place, FailsAt (wholeCondition (before ++ other)) place) : Offends before rest where
  isBeginning := hbefore
  next := by
    rintro t ht ⟨v, haccepted⟩
    -- the tokens that complete it, at whatever places
    let other : List Placed := (t :: v).map (⟨·, 0⟩)
    have htokens : Placed.tokens (before ++ other) = Placed.tokens before ++ [t] ++ v := by
      simp [other, Function.comp_def]
    obtain ⟨place, hfails⟩ := hstuck other ht.symm
    rw [← htokens] at haccepted
    exact not_failsAt_wholeCondition haccepted hfails
  finish := by
    rintro rfl haccepted
    obtain ⟨place, hfails⟩ := hstuck [] rfl
    rw [List.append_nil] at hfails
    exact not_failsAt_wholeCondition haccepted hfails

theorem Condition.exists_fault {text : String} {scan : Scan} {e : RuleError}
    (hscan : tokenize text = .ok scan) (h : Condition.ofText text = .error e) :
    ∃ fault, wholeCondition scan.tokens = .error fault ∧ fault.offset scan.finish = e.offset := by
  rw [Condition.ofText, readText, hscan] at h
  dsimp only at h
  split at h <;> cases h
  exact ⟨_, by assumption, rfl⟩

/-- **A syntax error is reported at the first token that does not fit**, or at the end of the text.
The only exception is a `NOT` behind a path: it is reported itself where neither `EXISTS`,
`CONTAINS` nor `IN` follows. -/
theorem Condition.offset_of_rejected {text : String} {scan : Scan} {e : RuleError}
    (hscan : tokenize text = .ok scan) (h : Condition.ofText text = .error e) :
    ∃ before rest, scan.tokens = before ++ rest ∧ Offends before rest ∧
      (¬ EndsInNot (Placed.tokens before) ∧
          e.offset = (rest.head?.map Placed.offset).getD scan.finish ∨
        ∃ front word, before = front ++ [word] ∧ EndsInNot (Placed.tokens before) ∧
          LacksNegatable rest ∧ e.offset = word.offset) := by
  obtain ⟨⟨complaint, place⟩, hfault, hoffset⟩ := exists_fault hscan h
  have hsingle := isSingle_of_tokenize hscan
  have hbreaks := breaks_wholeCondition ⟨complaint, hfault⟩
  rw [← hoffset]
  generalize scan.tokens = ts at hbreaks hsingle
  obtain ⟨before, rest, hcompletes, hstuck, hblames⟩ := hbreaks
  rw [Placed.tokens, List.map_append, List.forall_mem_append] at hsingle
  refine ⟨before, rest, rfl,
    offends_of_stuck (isBeginning_of_completes hsingle.1 hcompletes) hstuck, ?_⟩
  rw [← Trail.run_eq_negated_iff]
  generalize Trail.plain.run (Placed.tokens before) = s at hblames
  cases hblames with
  | next hs =>
    refine .inl ⟨hs, ?_⟩
    cases place <;> rfl
  | word front hlacks => exact .inr ⟨front, _, rfl, rfl, hlacks, rfl⟩

/-- Of `a NOT b` the `NOT` is reported, though the `b` is the first token that does not fit. -/
theorem Condition.offset_of_rejected_not :
    tokenize "a NOT b" =
        .ok ⟨[⟨.identifier "a", 0⟩, ⟨.keyword .not, 2⟩, ⟨.identifier "b", 6⟩], 7⟩ ∧
      ∃ e, Condition.ofText "a NOT b" = .error e ∧ e.offset = 2 ∧
        ∃ before rest, [⟨.identifier "a", 0⟩, ⟨.keyword .not, 2⟩, ⟨.identifier "b", 6⟩] =
            before ++ rest ∧ Offends before rest ∧
          (¬ EndsInNot (Placed.tokens before) ∧
              e.offset = (rest.head?.map Placed.offset).getD 7 ∨
            ∃ front word, before = front ++ [word] ∧ EndsInNot (Placed.tokens before) ∧
              LacksNegatable rest ∧ e.offset = word.offset) := by
  have hscan : tokenize "a NOT b" =
      .ok ⟨[⟨.identifier "a", 0⟩, ⟨.keyword .not, 2⟩, ⟨.identifier "b", 6⟩], 7⟩ := by
    decide +kernel
  have hplace : (Condition.ofText "a NOT b").mapError RuleError.offset = .error 2 := by
    decide +kernel
  rcases h : Condition.ofText "a NOT b" with e | c
  · rw [h] at hplace
    exact ⟨hscan, e, rfl, Except.error.inj hplace, offset_of_rejected hscan h⟩
  · rw [h] at hplace
    cases hplace

end MetadataRules
