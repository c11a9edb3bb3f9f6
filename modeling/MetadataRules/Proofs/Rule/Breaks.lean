/-
MetadataRules/Proofs/Rule/Breaks.lean

Where reading breaks off.

A reader that fails has read the beginning of a phrase, and the token that comes
next is the first one that no such phrase goes on with.  `Read.Breaks` says both:
some tokens complete what was read, and with the next token in its place the
reader fails whatever stands beyond it.  It says as well which place is
complained about, which is that next token unless what was read ends in a `NOT`
behind a path.  Reading on behind tokens that were read keeps all of this
(`Read.Breaks.behind`), so there is one lemma for each reader, the last of them
about whole conditions (`Read.breaks_wholeCondition`).
-/
import MetadataRules.Proofs.Rule.Lookahead
import MetadataRules.Proofs.Rule.Trail

namespace MetadataRules

open Grammar Attempt

namespace Grammar

/-! ### Phrases, whatever they stand for -/

def IsPath (w : List Token) : Prop := ∃ p, PathOf w p

def IsLiteral (w : List Token) : Prop := ∃ l, LiteralOf w l

/-- The items of a list with the bracket behind them. -/
def ClosesList (w : List Token) : Prop := ∃ v items, w = v ++ [.rightBracket] ∧ ItemsOf v items

/-- The pairs of an object with the brace behind them. -/
def ClosesObject (w : List Token) : Prop := ∃ v pairs, w = v ++ [.rightBrace] ∧ PairsOf v pairs

def IsDisjunction (w : List Token) : Prop := ∃ mark c, DisjunctionOf mark w c

def IsConjunction (w : List Token) : Prop := ∃ mark c, ConjunctionOf mark w c

def IsUnary (w : List Token) : Prop := ∃ mark c, UnaryOf mark w c

def IsAtom (w : List Token) : Prop := ∃ mark c, AtomOf mark w c

/-- `NOT` stands in front of any test; in front of `HAS` it belongs to that word. -/
theorem IsUnary.not {w : List Token} (h : IsUnary w) : IsUnary (.keyword .not :: w) := by
  obtain ⟨mark, c, h⟩ := h
  by_cases hhas : w.head? = some (.keyword .has)
  · cases h with
    | atom h =>
      cases h with
      | has hp => exact ⟨_, _, .notHas hp⟩
      | test hp h =>
        obtain ⟨hfirst, -⟩ := hp
        obtain rfl := Option.some.inj hhas
        cases hfirst
      | _ => cases hhas
    | _ => cases hhas
  · exact ⟨_, _, .not hhas h⟩

end Grammar

namespace Read

variable {s s' : Trail} {phrase phrase' : List Token → Prop}
  {fails fails' : List Placed → List Placed → Prop} {ts rest place : List Placed} {w : List Token}
  {p : Path}

/-! ### Completing what was read -/

/-- Tokens that may have to stand behind what was read to make a phrase of it. -/
def fillers : List Token :=
  [.identifier "x", .null, .rightBracket, .rightBrace, .rightParen, .colon, .keyword .where_,
    .keyword .exists_]

/-- With some fillers behind it the list is a phrase. -/
def Completes (phrase : List Token → Prop) (w : List Token) : Prop :=
  ∃ v, v ⊆ fillers ∧ phrase (w ++ v)

theorem Completes.of (h : phrase w) : Completes phrase w :=
  ⟨[], List.nil_subset _, by rwa [List.append_nil]⟩

theorem Completes.trans {front : List Token} (h : Completes phrase w)
    (hphrase : ∀ w, phrase w → Completes phrase' (front ++ w)) :
    Completes phrase' (front ++ w) := by
  obtain ⟨v, hv, h⟩ := h
  obtain ⟨v', hv', h'⟩ := hphrase _ h
  refine ⟨v ++ v', List.append_subset.2 ⟨hv, hv'⟩, ?_⟩
  simpa using h'

/-! ### The scan of placed tokens -/

theorem run_tokens_cons {t : Placed} {u : Token} (ht : t.token = u) :
    s.run (Placed.tokens (t :: ts)) = (s.next u).run (Placed.tokens ts) := by
  rw [← ht]
  rfl

theorem run_tokens_append (front ts : List Placed) :
    s.run (Placed.tokens (front ++ ts)) = (s.run (Placed.tokens front)).run (Placed.tokens ts) := by
  rw [Placed.tokens, List.map_append, Trail.run_append_eq]

/-! ### Breaking off -/

/-- The place that is complained about, where `used` was read and `rest` comes next: that of the
next token, or a `NOT` behind a path with no word behind it that it can negate. -/
inductive Blames : Trail → List Placed → List Placed → List Placed → Prop
  | next {s : Trail} {used rest : List Placed} (h : s ≠ .negated) : Blames s used rest rest
  | word {rest : List Placed} {word : Placed} (used : List Placed) (h : LacksNegatable rest) :
      Blames .negated (used ++ [word]) rest (word :: rest)

theorem Blames.append {used : List Placed} (h : Blames s used rest place) (front : List Placed) :
    Blames s (front ++ used) rest place := by
  cases h with
  | next h => exact .next h
  | word used h =>
    rw [← List.append_assoc]
    exact .word (front ++ used) h

/-- Reading a phrase, from a state of the scan of paths on, breaks off in a list and a place is
complained about. -/
inductive Breaks (s : Trail) (phrase : List Token → Prop)
    (fails : List Placed → List Placed → Prop) : List Placed → List Placed → Prop
  | intro (used rest : List Placed) {place : List Placed}
      (completes : Completes phrase (Placed.tokens used))
      (stuck : ∀ other, SameNext other rest → ∃ place, fails (used ++ other) place)
      (blames : Blames (s.run (Placed.tokens used)) used rest place) :
      Breaks s phrase fails (used ++ rest) place

/-- Reading breaks off at a token of the reader's own. -/
theorem Breaks.at (used : List Placed) (hs : s.run (Placed.tokens used) ≠ .negated)
    (hcompletes : Completes phrase (Placed.tokens used))
    (hfails : ∀ other, SameNext other rest → fails (used ++ other) other) :
    Breaks s phrase fails (used ++ rest) rest :=
  .intro used rest hcompletes (fun other hother => ⟨other, hfails other hother⟩) (.next hs)

/-- **Reading on behind tokens that were read** breaks off where the reading of what follows
them does. -/
theorem Breaks.behind (front : List Placed) (hs : s.run (Placed.tokens front) = s')
    (h : Breaks s' phrase fails ts place)
    (hphrase : ∀ w, phrase w → Completes phrase' (Placed.tokens front ++ w))
    (hfails : ∀ ts' place, SameNext ts' ts → fails ts' place → fails' (front ++ ts') place) :
    Breaks s phrase' fails' (front ++ ts) place := by
  obtain ⟨used, rest, hcompletes, hstuck, hblames⟩ := h
  rw [← List.append_assoc]
  refine .intro (front ++ used) rest ?completes (fun other hother => ?stuck) ?blames
  case completes =>
    rw [Placed.tokens, List.map_append]
    exact hcompletes.trans hphrase
  case stuck =>
    obtain ⟨place, hplace⟩ := hstuck other hother
    rw [List.append_assoc]
    exact ⟨place, hfails _ _ (hother.append used) hplace⟩
  case blames =>
    rw [run_tokens_append, hs]
    exact hblames.append front

/-- A phrase that begins with nothing else than another one. -/
theorem Breaks.mono (h : Breaks s phrase fails ts place)
    (hphrase : ∀ w, phrase w → Completes phrase' w)
    (hfails : ∀ ts' place, SameNext ts' ts → fails ts' place → fails' ts' place) :
    Breaks s phrase' fails' ts place :=
  h.behind [] rfl hphrase hfails

/-! ### Paths -/

theorem breaks_dotted : ∀ (ts : List Placed) {place : List Placed}, FailsAt (dotted ts) place →
    Breaks .path (fun w => ∃ ss, StepsOf w ss) (fun ts => FailsAt (dotted ts)) ts place
  | ts, place, h => by
    obtain ⟨t, behind, heq, ht, ⟨hlacks, rfl⟩ | ⟨u, beyond, rfl, hseg, hrest⟩⟩ :=
      failsAt_dotted_iff.1 h
    · subst heq
      refine .at [t] (by rw [run_tokens_cons ht]; exact nofun) ⟨[.identifier "x"], by decide, ?_⟩
        fun other hother => failsAt_dotted_iff.2 ⟨t, other, rfl, ht, .inl ⟨?_, rfl⟩⟩
      · simpa [ht] using ⟨_, StepsOf.cons (.name "x") .nil⟩
      · rwa [LacksStep, hother]
    · have hlength : ts.length = beyond.length + 2 := by rw [heq]; rfl
      subst heq
      obtain ⟨seg, hu⟩ := hseg
      have hstate : Trail.path.run (Placed.tokens [t, u]) = .path :=
        (run_tokens_cons ht).trans (Trail.next_dotted_of_nextOf hu)
      refine (breaks_dotted beyond hrest).behind [t, u] hstate (fun w hw => .of ?_)
        fun ts' place _ hfails => failsAt_dotted_iff.2
          ⟨t, _, rfl, ht, .inr ⟨u, ts', rfl, ⟨seg, hu⟩, hfails⟩⟩
      obtain ⟨ss, hw⟩ := hw
      simpa [ht] using ⟨_, StepsOf.cons hu hw⟩
termination_by ts => ts.length

theorem breaks_path {what : Expectation} (h : FailsAt (path what ts) place) :
    Breaks .plain IsPath (fun ts => FailsAt (path what ts)) ts place := by
  rcases failsAt_path_iff.1 h with ⟨hlacks, rfl⟩ | ⟨t, behind, rfl, ⟨seg, hseg⟩, hdotted⟩
  · refine .at [] nofun ⟨[.identifier "x"], by decide, _, .intro (.name "x") .nil⟩
      fun other hother => failsAt_path_iff.2 (.inl ⟨?_, rfl⟩)
    rwa [LacksPath, List.nil_append, hother]
  · refine (breaks_dotted behind hdotted).behind [t] (Trail.next_of_firstOf hseg _)
      (fun w hw => .of ?_)
      fun ts' place _ hfails => failsAt_path_iff.2 (.inr ⟨t, ts', rfl, ⟨seg, hseg⟩, hfails⟩)
    obtain ⟨ss, hw⟩ := hw
    exact ⟨_, .intro hseg hw⟩

/-- A path was read, and is read whatever stands beyond the token behind it. -/
theorem exists_front_path {what : Expectation} (h : (path what ts).Reads p rest) :
    ∃ front, ts = front ++ rest ∧ PathOf (Placed.tokens front) p ∧
      ∀ rest', SameNext rest' rest → (path what (front ++ rest')).Reads p rest' := by
  obtain ⟨front, rfl, hof, hdot⟩ := reads_path_iff.1 h
  exact ⟨front, rfl, hof, fun rest' hrest =>
    reads_path_iff.2 ⟨front, rfl, hof, by rwa [hrest]⟩⟩

/-! ### Literals -/

section Entry

variable {close : Token} {closes : List Token → Prop}

/-- An item of a list or a value of an object, with what is in front of it. -/
theorem breaks_entry (front : List Placed) (hs : Trail.plain.run (Placed.tokens front) = .plain)
    (hclose : close ∈ fillers)
    (hlast : ∀ w, IsLiteral w → closes (Placed.tokens front ++ w ++ [close]))
    (hcons : ∀ w v, IsLiteral w → closes v → closes (Placed.tokens front ++ w ++ .comma :: v))
    (hliteral : FailsAt (literal ts) place →
      Breaks .plain IsLiteral (fun ts => FailsAt (literal ts)) ts place)
    (hmore : ∀ behind, behind.length < ts.length → fails behind place →
      Breaks .plain closes fails behind place)
    (hfails : ∀ ts' place, SameNext ts' ts → FailsEntry close fails ts' place →
      fails (front ++ ts') place)
    (h : FailsEntry close fails ts place) : Breaks .plain closes fails (front ++ ts) place := by
  rcases h with h | ⟨l, mid, hl, h⟩
  · -- the closing sign may stand behind any literal
    refine (hliteral h).behind front hs
      (fun w hw => ⟨[close], List.cons_subset.2 ⟨hclose, List.nil_subset _⟩, hlast w hw⟩)
      fun ts' place hsame h => hfails ts' place hsame (.inl h)
  · have hlt : mid.length < ts.length := hl.length_lt
    obtain ⟨used, rfl, hof⟩ := reads_literal_iff.1 hl
    have hread : ∀ other, (literal (used ++ other)).Reads l other := fun other =>
      reads_literal_iff.2 ⟨used, rfl, hof⟩
    have hsettled := Trail.settled_literalOf hof
    rcases h with ⟨hlacks, rfl⟩ | ⟨q, behind, rfl, hq, h⟩
    · -- a literal ends in no `NOT` behind a path, so the token behind it is what is reported
      rw [← List.append_assoc]
      refine .at (front ++ used) ?_ ⟨[close], ?_, ?_⟩ fun other hother => ?_
      · rw [run_tokens_append, hs]
        exact hsettled.ne_negated
      · exact List.cons_subset.2 ⟨hclose, List.nil_subset _⟩
      · rw [Placed.tokens, List.map_append]
        exact hlast _ ⟨l, hof⟩
      · rw [List.append_assoc]
        refine hfails _ _ (hother.append used) (.inr ⟨l, other, hread other, .inl ⟨?_, rfl⟩⟩)
        rwa [LacksSeparator, hother]
    · have hsplit : ∀ behind, front ++ (used ++ q :: behind) = front ++ used ++ [q] ++ behind := by
        simp
      rw [hsplit]
      refine (hmore behind (Nat.lt_of_succ_lt hlt) h).behind _ ?_ (fun w hw => .of ?_)
        fun ts' place _ h => ?_
      · simpa [hs, hq] using hsettled.next_eq_plain (t := .comma) rfl (by decide) (by decide)
      · simpa [hq] using hcons _ w ⟨l, hof⟩ hw
      · rw [← hsplit]
        have hsame : SameNext (q :: ts') (q :: behind) := rfl
        exact hfails _ _ (hsame.append used)
          (.inr ⟨l, _, hread _, .inr ⟨q, ts', rfl, hq, h⟩⟩)

end Entry

mutual

theorem breaks_literal (ts : List Placed) {place : List Placed} (h : FailsAt (literal ts) place) :
    Breaks .plain IsLiteral (fun ts => FailsAt (literal ts)) ts place := by
  rcases failsAt_literal_iff.1 h with
    ⟨hlacks, rfl⟩ | ⟨t, behind, heq, ⟨ht, hitems⟩ | ⟨ht, hpairs⟩⟩
  · refine .at [] nofun ⟨[.null], by decide, _, .null⟩
      fun other hother => failsAt_literal_iff.2 (.inl ⟨?_, rfl⟩)
    rwa [LacksLiteral, List.nil_append, hother]
  · have hlength : ts.length = behind.length + 1 := by rw [heq]; rfl
    subst heq
    refine (breaks_listItems behind hitems).behind [t] (run_tokens_cons ht) (fun w hw => .of ?_)
      fun ts' place _ hfails => failsAt_literal_iff.2 (.inr ⟨t, ts', rfl, .inl ⟨ht, hfails⟩⟩)
    obtain ⟨v, items, rfl, hv⟩ := hw
    simpa [ht] using ⟨_, LiteralOf.list hv⟩
  · have hlength : ts.length = behind.length + 1 := by rw [heq]; rfl
    subst heq
    refine (breaks_objectPairs behind hpairs).behind [t] (run_tokens_cons ht) (fun w hw => .of ?_)
      fun ts' place _ hfails => failsAt_literal_iff.2 (.inr ⟨t, ts', rfl, .inr ⟨ht, hfails⟩⟩)
    obtain ⟨v, pairs, rfl, hv⟩ := hw
    simpa [ht] using ⟨_, LiteralOf.object hv (Fields.collects_iff.2 rfl)⟩
termination_by 2 * ts.length

theorem breaks_listItems (ts : List Placed) {place : List Placed}
    (h : FailsAt (listItems ts) place) :
    Breaks .plain ClosesList (fun ts => FailsAt (listItems ts)) ts place := by
  obtain ⟨hne, hentry⟩ := failsAt_listItems_iff.1 h
  -- nothing stands in front of an item; of a value there are the key and the colon
  refine breaks_entry [] rfl (by decide) ?last ?cons (breaks_literal ts)
    (fun behind hlt => breaks_listItems behind) ?fails hentry
  case last =>
    rintro w ⟨l, hw⟩
    exact ⟨w, _, rfl, .last hw⟩
  case cons =>
    rintro w _ ⟨l, hw⟩ ⟨v, items, rfl, hv⟩
    exact ⟨_, _, by simp, .cons hw hv⟩
  case fails =>
    intro ts' place hsame hentry
    exact failsAt_listItems_iff.2 ⟨by rwa [List.nil_append, hsame], hentry⟩
termination_by 2 * ts.length + 1

theorem breaks_objectPairs (ts : List Placed) {place : List Placed}
    (h : FailsAt (objectPairs ts) place) :
    Breaks .plain ClosesObject (fun ts => FailsAt (objectPairs ts)) ts place := by
  obtain ⟨hne, ⟨hlacks, rfl⟩ | ⟨t, value, heq, ⟨key, hkey⟩, hvalue⟩⟩ :=
    failsAt_objectPairs_iff.1 h
  · refine .at [] nofun ⟨[.rightBrace], by decide, [], [], rfl, .nil⟩
      fun other hother => failsAt_objectPairs_iff.2
        ⟨by rwa [List.nil_append, hother], .inl ⟨?_, rfl⟩⟩
    rwa [LacksKey, List.nil_append, hother]
  · have hsettled := Trail.settled_keyOf hkey
    rcases hvalue with ⟨hcolon, rfl⟩ | ⟨c, value, rfl, hc, hentry⟩
    · subst heq
      exact .at [t] hsettled.ne_negated
        ⟨[.colon, .null, .rightBrace], by decide, _, _, rfl, .last hkey .null⟩
        fun other hother => failsAt_objectPairs_iff.2
          ⟨hne, .inr ⟨t, other, rfl, ⟨key, hkey⟩, .inl ⟨by rwa [hother], rfl⟩⟩⟩
    · have hlength : ts.length = value.length + 2 := by rw [heq]; rfl
      subst heq
      refine breaks_entry [t, c] ?state (by decide) ?last ?cons (breaks_literal value)
        (fun behind hlt => breaks_objectPairs behind) ?fails hentry
      case state =>
        simpa [hc] using hsettled.next_eq_plain (t := .colon) rfl (by decide) (by decide)
      case last =>
        rintro w ⟨l, hw⟩
        exact ⟨_, _, by simp [hc], .last hkey hw⟩
      case cons =>
        rintro w _ ⟨l, hw⟩ ⟨v, items, rfl, hv⟩
        exact ⟨_, _, by simp [hc], .cons hkey hw hv⟩
      case fails =>
        intro ts' place _ hentry
        exact failsAt_objectPairs_iff.2
          ⟨hne, .inr ⟨t, _, rfl, ⟨key, hkey⟩, .inr ⟨c, ts', rfl, hc, hentry⟩⟩⟩
termination_by 2 * ts.length + 1

end

/-! ### Tests of one path -/

/-- What may stand behind the path `p` in a test. -/
def IsPredicate (p : Path) (w : List Token) : Prop := ∃ c, PredicateOf p w c

theorem exists_membershipOf {t : Token} (ht : t = .keyword .contains ∨ t = .keyword .in_)
    (p : Path) (h : IsLiteral w) : ∃ c, MembershipOf p (t :: w) c := by
  obtain ⟨l, h⟩ := h
  rcases ht with rfl | rfl
  · exact ⟨_, membershipOf_iff.2 ⟨w, l, h, .inl ⟨rfl, rfl⟩⟩⟩
  · exact ⟨_, membershipOf_iff.2 ⟨w, l, h, .inr ⟨rfl, rfl⟩⟩⟩

theorem isPredicate_of_asksLiteral {t : Token} (ht : asksLiteral t = true) (p : Path)
    (h : IsLiteral w) : IsPredicate p (t :: w) := by
  rcases hop : comparison? t with - | op
  · have hmember : t = .keyword .contains ∨ t = .keyword .in_ := by
      simpa [asksLiteral, hop] using ht
    obtain ⟨c, h⟩ := exists_membershipOf hmember p h
    exact ⟨c, .member h⟩
  · obtain ⟨l, h⟩ := h
    exact ⟨_, .compare (comparison?_eq_some_iff.1 hop) h⟩

/-- A word or a sign that asks for a literal begins something new. -/
theorem next_of_asksLiteral {t : Token} (ht : asksLiteral t = true) (hs : s ≠ .dotted) :
    s.next t = .plain := by
  have hfirst : firstSegment? t = none ∧ t ≠ .dot ∧ t ≠ .keyword .not := by
    refine ⟨?_, ?_, ?_⟩
    · unfold firstSegment?
      split <;> first | cases ht | rfl
    · rintro rfl
      cases ht
    · rintro rfl
      cases ht
  simp [Trail.next, hfirst, hs]

theorem breaks_predicate (h : FailsAt (predicate p ts) place) :
    Breaks .path (IsPredicate p) (fun ts => FailsAt (predicate p ts)) ts place := by
  obtain ⟨t, behind, rfl, ⟨hasks, hl⟩ | ⟨ht, ⟨hlacks, rfl⟩ | ⟨u, beyond, rfl, hu, hl⟩⟩⟩ :=
    failsAt_predicate_iff.1 h
  · refine (breaks_literal behind hl).behind [t] (next_of_asksLiteral hasks (by decide))
      (fun w hw => .of (isPredicate_of_asksLiteral hasks p hw))
      fun ts' place _ hfails => failsAt_predicate_iff.2 ⟨t, ts', rfl, .inl ⟨hasks, hfails⟩⟩
  · -- here the word is complained about, and not the token behind it
    refine .intro [t] behind ⟨[.keyword .exists_], by decide, .present p true, ?_⟩
      (fun other hother => ?_) ?_
    · simpa [ht] using PredicateOf.notExists
    · refine ⟨_, failsAt_predicate_iff.2 ⟨t, other, rfl, .inr ⟨ht, .inl ⟨?_, rfl⟩⟩⟩⟩
      rwa [LacksNegatable, hother]
    · rw [run_tokens_cons ht]
      exact .word [] hlacks
  · have hasks : asksLiteral u.token = true := by
      rcases hu with hu | hu <;> rw [hu] <;> rfl
    have hstate : Trail.path.run (Placed.tokens [t, u]) = .plain :=
      (run_tokens_cons ht).trans (next_of_asksLiteral hasks (by decide))
    refine (breaks_literal beyond hl).behind [t, u] hstate (fun w hw => .of ?_)
      fun ts' place _ hfails => failsAt_predicate_iff.2
        ⟨t, _, rfl, .inr ⟨ht, .inr ⟨u, ts', rfl, hu, hfails⟩⟩⟩
    obtain ⟨c, hc⟩ := exists_membershipOf hu p hw
    simpa [ht] using ⟨_, PredicateOf.notMember hc⟩

theorem breaks_pathTest (h : FailsAt (pathTest ts) place) :
    Breaks .plain IsAtom (fun ts => FailsAt (pathTest ts)) ts place := by
  rcases failsAt_pathTest_iff.1 h with hpath | ⟨p, mid, hp, hpredicate⟩
  · refine (breaks_path hpath).mono (fun w hw => .of ?_)
      fun ts' place _ hfails => failsAt_pathTest_iff.2 (.inl hfails)
    obtain ⟨p, hw⟩ := hw
    exact ⟨_, _, by simpa using AtomOf.test hw .truthy⟩
  · obtain ⟨front, rfl, hof, htaken⟩ := exists_front_path hp
    refine (breaks_predicate hpredicate).behind front (Trail.run_pathOf hof _) (fun w hw => .of ?_)
      fun ts' place hsame hfails => failsAt_pathTest_iff.2 (.inr ⟨p, ts', htaken ts' hsame, hfails⟩)
    obtain ⟨c, hw⟩ := hw
    exact ⟨_, _, by simpa using AtomOf.test hof hw⟩

/-! ### Conditions -/

section Front

variable {c : Condition}

/-- A phrase that a reader takes, with the tokens that it is. -/
theorem Takes.exists_front {R : List Placed → List Placed → Prop} {Q : List Placed → Prop}
    (h : Takes R rest ts) (hQ : ∃ used, ts = used ++ rest ∧ Q used) :
    ∃ front, ts = front ++ rest ∧ Q front ∧
      ∀ rest', SameNext rest' rest → R (front ++ rest') rest' := by
  obtain ⟨front, h⟩ := h
  obtain ⟨used, heq, hQ⟩ := hQ
  obtain rfl := List.append_cancel_right heq
  exact ⟨front, rfl, hQ, h⟩

theorem exists_front_disjunction (h : (disjunction ts).Reads c rest) :
    ∃ front, ts = front ++ rest ∧ (∃ mark, DisjunctionOf mark (Placed.tokens front) c) ∧
      ∀ rest', SameNext rest' rest → (disjunction (front ++ rest')).Reads c rest' := by
  obtain ⟨used, mark, heq, hof, -⟩ := disjunctionOf_of_reads ts h
  exact (takes_disjunction ts h).exists_front ⟨used, heq, mark, hof⟩

theorem exists_front_conjunction (h : (conjunction ts).Reads c rest) :
    ∃ front, ts = front ++ rest ∧
      (∃ mark, ConjunctionOf mark (Placed.tokens front) c ∧ (mark = true → Apart rest)) ∧
      ∀ rest', SameNext rest' rest → (conjunction (front ++ rest')).Reads c rest' := by
  obtain ⟨used, mark, heq, hof, -, hapart⟩ := conjunctionOf_of_reads ts h
  exact (takes_conjunction ts h).exists_front ⟨used, heq, mark, hof, hapart⟩

theorem exists_front_unary (h : (unary ts).Reads c rest) :
    ∃ front, ts = front ++ rest ∧
      (∃ mark, UnaryOf mark (Placed.tokens front) c ∧ (mark = true → Apart rest)) ∧
      ∀ rest', SameNext rest' rest → (unary (front ++ rest')).Reads c rest' := by
  obtain ⟨used, mark, heq, hof, hapart⟩ := unaryOf_of_reads ts h
  exact (takes_unary ts h).exists_front ⟨used, heq, mark, hof, hapart⟩

end Front

/-- A name by itself is a test. -/
theorem atomOf_filler : AtomOf false [.identifier "x"] (.truthy ⟨[.key "x"]⟩) :=
  .test (.intro (.name "x") .nil) .truthy

theorem disjunctionOf_filler : DisjunctionOf false [.identifier "x"] (.truthy ⟨[.key "x"]⟩) :=
  .single (.single (.atom atomOf_filler))

section Atom

variable {t : Placed} {behind : List Placed}

theorem breaks_atom_path {seg : Segment} (hseg : FirstOf t.token seg)
    (h : FailsAt (atom (t :: behind)) place) :
    Breaks .plain IsAtom (fun ts => FailsAt (atom ts)) (t :: behind) place := by
  refine (breaks_pathTest ((failsAt_atom_path hseg).1 h)).mono (fun w => .of)
    fun ts' place hsame hfails => ?_
  obtain ⟨u, behind, rfl, hu⟩ := exists_cons_of_sameNext hsame
  exact (failsAt_atom_path (hu ▸ hseg)).2 hfails

theorem breaks_atom_has (ht : t.token = .keyword .has) (h : FailsAt (atom (t :: behind)) place) :
    Breaks .plain IsAtom (fun ts => FailsAt (atom ts)) (t :: behind) place := by
  refine (breaks_path ((failsAt_atom_has ht).1 h)).behind [t] (run_tokens_cons ht)
    (fun w hw => .of ?_) fun ts' place _ hfails => (failsAt_atom_has ht).2 hfails
  obtain ⟨p, hw⟩ := hw
  exact ⟨_, _, by simpa [ht] using AtomOf.has hw⟩

theorem breaks_atom_paren (ht : t.token = .leftParen)
    (hdisjunction : FailsAt (disjunction behind) place →
      Breaks .plain IsDisjunction (fun ts => FailsAt (disjunction ts)) behind place)
    (h : FailsAt (atom (t :: behind)) place) :
    Breaks .plain IsAtom (fun ts => FailsAt (atom ts)) (t :: behind) place := by
  rcases (failsAt_atom_paren ht).1 h with hinner | ⟨c, hinner, hclose⟩
  · refine (hdisjunction hinner).behind [t] (run_tokens_cons ht)
      (fun w hw => ⟨[.rightParen], by decide, ?_⟩)
      fun ts' place _ hfails => (failsAt_atom_paren ht).2 (.inl hfails)
    obtain ⟨mark, c, hw⟩ := hw
    exact ⟨_, _, by simpa [ht] using AtomOf.paren hw⟩
  · -- the inner condition is complete, and goes on with nothing that could come next
    obtain ⟨front, rfl, ⟨mark, hof⟩, htaken⟩ := exists_front_disjunction hinner
    refine .at (t :: front) ?_ ⟨[.rightParen], by decide, false, c, ?_⟩
      fun other hother => (failsAt_atom_paren ht).2
        (.inr ⟨c, htaken other hother, by rwa [hother]⟩)
    · rw [run_tokens_cons ht]
      exact (Trail.settled_disjunctionOf hof).ne_negated
    · simpa [ht] using AtomOf.paren hof

theorem breaks_atom_any (ht : t.token = .keyword .any)
    (hdisjunction : ∀ body, body.length < behind.length → FailsAt (disjunction body) place →
      Breaks .plain IsDisjunction (fun ts => FailsAt (disjunction ts)) body place)
    (h : FailsAt (atom (t :: behind)) place) :
    Breaks .plain IsAtom (fun ts => FailsAt (atom ts)) (t :: behind) place := by
  rcases (failsAt_atom_any ht).1 h with hpath | ⟨p, mid, hp, hmid⟩
  · refine (breaks_path hpath).behind [t] (run_tokens_cons ht)
      (fun w hw => ⟨[.keyword .where_, .identifier "x"], by decide, ?_⟩)
      fun ts' place _ hfails => (failsAt_atom_any ht).2 (.inl hfails)
    obtain ⟨p, hw⟩ := hw
    exact ⟨_, _, by simpa [ht] using AtomOf.any hw disjunctionOf_filler⟩
  · have hlt : mid.length < behind.length := hp.length_lt
    obtain ⟨front, rfl, hof, htaken⟩ := exists_front_path hp
    have hstate : Trail.plain.run (Placed.tokens (t :: front)) = .path :=
      (run_tokens_cons ht).trans (Trail.run_pathOf hof _)
    rcases hmid with ⟨hwhere, rfl⟩ | ⟨w, body, rfl, hw, hbody⟩
    · have hany := AtomOf.any hof disjunctionOf_filler
      exact .at (t :: front) (by rw [hstate]; exact nofun)
        ⟨[.keyword .where_, .identifier "x"], by decide, _, _, by simpa [ht] using hany⟩
        fun other hother => (failsAt_atom_any ht).2
          (.inr ⟨p, other, htaken other hother, .inl ⟨by rwa [hother], rfl⟩⟩)
    · have hsplit : ∀ body, t :: (front ++ w :: body) = t :: front ++ [w] ++ body := by simp
      rw [hsplit]
      refine (hdisjunction body (Nat.lt_of_succ_lt hlt) hbody).behind (t :: front ++ [w]) ?_
        (fun v hv => .of ?_) fun ts' place _ hfails => ?_
      · rw [run_tokens_append, hstate]
        exact run_tokens_cons hw
      · obtain ⟨mark, c, hv⟩ := hv
        exact ⟨_, _, by simpa [ht, hw] using AtomOf.any hof hv⟩
      · have hnext : SameNext (w :: ts') (w :: body) := rfl
        rw [← hsplit]
        exact (failsAt_atom_any ht).2
          (.inr ⟨p, _, htaken (w :: ts') hnext, .inr ⟨w, ts', rfl, hw, hfails⟩⟩)

end Atom

mutual

theorem breaks_disjunction (ts : List Placed) {place : List Placed}
    (h : FailsAt (disjunction ts) place) :
    Breaks .plain IsDisjunction (fun ts => FailsAt (disjunction ts)) ts place := by
  rcases failsAt_disjunction_iff.1 h with hleft | ⟨left, mid, hleft, hrest⟩
  · refine (breaks_conjunction ts hleft).mono (fun w hw => .of ?_)
      fun ts' place _ hfails => failsAt_disjunction_iff.2 (.inl hfails)
    obtain ⟨mark, c, hw⟩ := hw
    exact ⟨mark, c, .single hw⟩
  · have hlt : mid.length < ts.length := hleft.length_lt
    -- the loop goes on with what was read so far
    obtain ⟨front, rfl, ⟨mark, hof, hapart⟩, htaken⟩ := exists_front_conjunction hleft
    exact (breaks_orRest mid front (.single hof) hapart (Trail.settled_conjunctionOf hof)
      hrest).behind front rfl (fun w hw => .of hw)
      fun ts' place hsame hfails => failsAt_disjunction_iff.2
        (.inr ⟨left, ts', htaken ts' hsame, hfails⟩)
termination_by 5 * ts.length + 4

theorem breaks_orRest (ts front : List Placed) {s : Trail} {mark : Bool} {left : Condition}
    {place : List Placed} (hof : DisjunctionOf mark (Placed.tokens front) left)
    (hapart : mark = true → Apart ts) (hs : s.Settled) (h : FailsAt (orRest left ts) place) :
    Breaks s (fun w => IsDisjunction (Placed.tokens front ++ w))
      (fun ts => FailsAt (orRest left ts)) ts place := by
  obtain ⟨t, behind, heq, ht, hbehind⟩ := failsAt_orRest_iff.1 h
  have hlength : ts.length = behind.length + 1 := by rw [heq]; rfl
  subst heq
  -- a left operand that is followed by a word that joins ends in no open `ANY`
  obtain rfl : mark = false := mark_eq_false hapart (congrArg some ht) rfl
  have hnext : s.run (Placed.tokens [t]) = .plain := by
    rw [run_tokens_cons ht]
    exact hs.next_eq_plain rfl (by decide) (by decide)
  rcases hbehind with hright | ⟨right, mid, hright, hrest⟩
  · refine (breaks_conjunction behind hright).behind [t] hnext (fun w hw => .of ?_)
      fun ts' place _ hfails => failsAt_orRest_iff.2 ⟨t, ts', rfl, ht, .inl hfails⟩
    obtain ⟨mark, c, hw⟩ := hw
    exact ⟨mark, _, by simpa [ht] using DisjunctionOf.or hof hw⟩
  · have hlt : mid.length < behind.length := hright.length_lt
    obtain ⟨used, rfl, ⟨mark, hof', hapart'⟩, htaken⟩ := exists_front_conjunction hright
    have hjoined : DisjunctionOf mark (Placed.tokens (front ++ t :: used)) (.or left right) := by
      simpa [ht] using DisjunctionOf.or hof hof'
    refine (breaks_orRest mid (front ++ t :: used) hjoined hapart'
      (Trail.settled_conjunctionOf hof') hrest).behind (t :: used) ?_ (fun w hw => .of ?_)
      fun ts' place hsame hfails => failsAt_orRest_iff.2
        ⟨t, _, rfl, ht, .inr ⟨right, ts', htaken ts' hsame, hfails⟩⟩
    · rw [← hnext, ← run_tokens_append]
      rfl
    · simpa using hw
termination_by 5 * ts.length + 4

theorem breaks_conjunction (ts : List Placed) {place : List Placed}
    (h : FailsAt (conjunction ts) place) :
    Breaks .plain IsConjunction (fun ts => FailsAt (conjunction ts)) ts place := by
  rcases failsAt_conjunction_iff.1 h with hleft | ⟨left, mid, hleft, hrest⟩
  · refine (breaks_unary ts hleft).mono (fun w hw => .of ?_)
      fun ts' place _ hfails => failsAt_conjunction_iff.2 (.inl hfails)
    obtain ⟨mark, c, hw⟩ := hw
    exact ⟨mark, c, .single hw⟩
  · have hlt : mid.length < ts.length := hleft.length_lt
    obtain ⟨front, rfl, ⟨mark, hof, hapart⟩, htaken⟩ := exists_front_unary hleft
    exact (breaks_andRest mid front (.single hof) hapart (Trail.settled_unaryOf hof)
      hrest).behind front rfl (fun w hw => .of hw)
      fun ts' place hsame hfails => failsAt_conjunction_iff.2
        (.inr ⟨left, ts', htaken ts' hsame, hfails⟩)
termination_by 5 * ts.length + 3

theorem breaks_andRest (ts front : List Placed) {s : Trail} {mark : Bool} {left : Condition}
    {place : List Placed} (hof : ConjunctionOf mark (Placed.tokens front) left)
    (hapart : mark = true → Apart ts) (hs : s.Settled) (h : FailsAt (andRest left ts) place) :
    Breaks s (fun w => IsConjunction (Placed.tokens front ++ w))
      (fun ts => FailsAt (andRest left ts)) ts place := by
  obtain ⟨t, behind, heq, ht, hbehind⟩ := failsAt_andRest_iff.1 h
  have hlength : ts.length = behind.length + 1 := by rw [heq]; rfl
  subst heq
  obtain rfl : mark = false := mark_eq_false hapart (congrArg some ht) rfl
  have hnext : s.run (Placed.tokens [t]) = .plain := by
    rw [run_tokens_cons ht]
    exact hs.next_eq_plain rfl (by decide) (by decide)
  rcases hbehind with hright | ⟨right, mid, hright, hrest⟩
  · refine (breaks_unary behind hright).behind [t] hnext (fun w hw => .of ?_)
      fun ts' place _ hfails => failsAt_andRest_iff.2 ⟨t, ts', rfl, ht, .inl hfails⟩
    obtain ⟨mark, c, hw⟩ := hw
    exact ⟨mark, _, by simpa [ht] using ConjunctionOf.and hof hw⟩
  · have hlt : mid.length < behind.length := hright.length_lt
    obtain ⟨used, rfl, ⟨mark, hof', hapart'⟩, htaken⟩ := exists_front_unary hright
    have hjoined : ConjunctionOf mark (Placed.tokens (front ++ t :: used)) (.and left right) := by
      simpa [ht] using ConjunctionOf.and hof hof'
    refine (breaks_andRest mid (front ++ t :: used) hjoined hapart'
      (Trail.settled_unaryOf hof') hrest).behind (t :: used) ?_ (fun w hw => .of ?_)
      fun ts' place hsame hfails => failsAt_andRest_iff.2
        ⟨t, _, rfl, ht, .inr ⟨right, ts', htaken ts' hsame, hfails⟩⟩
    · rw [← hnext, ← run_tokens_append]
      rfl
    · simpa using hw
termination_by 5 * ts.length + 3

theorem breaks_unary (ts : List Placed) {place : List Placed} (h : FailsAt (unary ts) place) :
    Breaks .plain IsUnary (fun ts => FailsAt (unary ts)) ts place := by
  rcases failsAt_unary_iff.1 h with ⟨hnot, hatom⟩ | ⟨t, behind, heq, ht, hbehind⟩
  · refine (breaks_atom ts hatom).mono (fun w hw => .of ?_)
      fun ts' place hsame hfails => failsAt_unary_iff.2 (.inl ⟨by rwa [hsame], hfails⟩)
    obtain ⟨mark, c, hw⟩ := hw
    exact ⟨mark, c, .atom hw⟩
  · have hlength : ts.length = behind.length + 1 := by rw [heq]; rfl
    subst heq
    rcases hbehind with ⟨hhas, hoperand⟩ | ⟨u, beyond, rfl, hu, hpath⟩
    · exact (breaks_unary behind hoperand).behind [t] (run_tokens_cons ht)
        (fun w hw => .of (by simpa [ht] using hw.not))
        fun ts' place hsame hfails => failsAt_unary_iff.2
          (.inr ⟨t, ts', rfl, ht, .inl ⟨by rwa [hsame], hfails⟩⟩)
    · refine (breaks_path hpath).behind [t, u] ((run_tokens_cons ht).trans (run_tokens_cons hu))
        (fun w hw => .of ?_) fun ts' place _ hfails => failsAt_unary_iff.2
          (.inr ⟨t, _, rfl, ht, .inr ⟨u, ts', rfl, hu, hfails⟩⟩)
      obtain ⟨p, hw⟩ := hw
      exact ⟨_, _, by simpa [ht, hu] using UnaryOf.notHas hw⟩
termination_by 5 * ts.length + 2

theorem breaks_atom (ts : List Placed) {place : List Placed} (h : FailsAt (atom ts) place) :
    Breaks .plain IsAtom (fun ts => FailsAt (atom ts)) ts place := by
  by_cases hstarts : (nextToken? ts).any startsAtom = false
  · -- nothing was read, and every list of tokens that begins so fails at once
    obtain rfl := (failsAt_atom_of_not_starts hstarts).1 h
    refine .at [] nofun ⟨[.identifier "x"], by decide, _, _, atomOf_filler⟩
      fun other hother => (failsAt_atom_of_not_starts ?_).2 rfl
    rwa [List.nil_append, hother]
  obtain ⟨t, behind, heq, ht⟩ : ∃ t behind, ts = t :: behind ∧ startsAtom t.token = true := by
    rcases ts with - | ⟨t, behind⟩
    · exact absurd rfl hstarts
    · exact ⟨t, behind, rfl, eq_true_of_ne_false hstarts⟩
  have hlength : ts.length = behind.length + 1 := by rw [heq]; rfl
  subst heq
  simp only [startsAtom, Bool.or_eq_true, beq_iff_eq] at ht
  rcases ht with ((hfirst | ht) | ht) | ht
  · obtain ⟨seg, hseg⟩ := Option.isSome_iff_exists.1 hfirst
    exact breaks_atom_path (firstSegment?_eq_some_iff.1 hseg) h
  · exact breaks_atom_paren ht (breaks_disjunction behind) h
  · exact breaks_atom_has ht h
  · exact breaks_atom_any ht (fun body hlt => breaks_disjunction body) h
termination_by 5 * ts.length + 1

end

/-- **Reading a whole condition** breaks off in front of the first token that does not fit, or
behind all tokens if more are needed. -/
theorem breaks_wholeCondition (h : FailsAt (wholeCondition ts) place) :
    Breaks .plain IsDisjunction (fun ts => FailsAt (wholeCondition ts)) ts place := by
  rcases failsAt_wholeCondition_iff.1 h with ⟨hnone, rfl⟩ | ⟨hsome, hfails | ⟨c, hread, hbehind⟩⟩
  · exact .at [] nofun ⟨[.identifier "x"], by decide, _, _, disjunctionOf_filler⟩
      fun other hother => failsAt_wholeCondition_iff.2 (.inl ⟨hother.trans hnone, rfl⟩)
  · exact (breaks_disjunction ts hfails).mono (fun w => .of)
      fun ts' place hsame hfails => failsAt_wholeCondition_iff.2
        (.inr ⟨by rwa [hsame], .inl hfails⟩)
  · obtain ⟨front, rfl, ⟨mark, hof⟩, htaken⟩ := exists_front_disjunction hread
    exact .at front (Trail.settled_disjunctionOf hof).ne_negated (.of ⟨mark, c, hof⟩)
      fun other hother => failsAt_wholeCondition_iff.2
        (.inr ⟨by rwa [hother.append front], .inr ⟨c, htaken other hother, by rwa [hother]⟩⟩)

end Read

end MetadataRules
