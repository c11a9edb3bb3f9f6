/-
MetadataRules/Proofs/Rule/Phrase.lean

The readers of phrases and the grammar.

Paths and literals are read to their end, whatever follows: the reader of a path
goes on while there is a dot, and a literal shows its own end.  So one
equivalence describes each reader, for every list of tokens
(`Read.reads_path_iff`, `Read.reads_literal_iff`).
-/
import MetadataRules.Proofs.Rule.Grammar
import MetadataRules.Proofs.Rule.Reads
import MetadataRules.Rule.Phrase

namespace MetadataRules

open Grammar Attempt

/-- The tokens of a list of placed tokens. -/
abbrev Placed.tokens (ts : List Placed) : List Token := ts.map Placed.token

namespace Read

variable {ts rest : List Placed}

@[simp] theorem nextToken?_nil : nextToken? [] = none := rfl

@[simp] theorem nextToken?_cons (t : Placed) (ts : List Placed) :
    nextToken? (t :: ts) = some t.token := rfl

/-! ### Paths -/

theorem firstSegment?_eq_some_iff {t : Token} {s : Segment} :
    firstSegment? t = some s ↔ FirstOf t s := by
  constructor
  · intro h
    unfold firstSegment? at h
    split at h <;> cases h
    · exact .name _
    · exact .quoted _
    · exact .current
  · rintro (_ | _ | _) <;> rfl

theorem nextSegment?_eq_some_iff {t : Token} {s : Segment} :
    nextSegment? t = some s ↔ NextOf t s := by
  constructor
  · intro h
    unfold nextSegment? at h
    split at h <;> try cases h
    · exact .name _
    · exact .quoted _
    · exact .keyword _
    · exact .yes
    · exact .no
    · exact .null
    · obtain ⟨i, hi, rfl⟩ := Option.map_eq_some_iff.1 h
      exact .position hi
  · rintro (_ | _ | _ | _ | _ | _ | h) <;> simp [nextSegment?, *]

theorem dotted_of_ne_dot (h : nextToken? rest ≠ some .dot) : dotted rest = .ok ([], rest) := by
  cases rest with
  | nil => rfl
  | cons t ts =>
    have ht : t.token ≠ .dot := fun heq => h (congrArg some heq)
    rw [dotted.eq_def]
    exact if_neg ht

/-- The segments behind the first are read up to the last dot. -/
theorem dotted_eq_ok_iff {ss : List Segment} :
    dotted ts = .ok (ss, rest) ↔
      ∃ used, ts = used ++ rest ∧ StepsOf (Placed.tokens used) ss ∧
        nextToken? rest ≠ some .dot := by
  constructor
  · intro h
    fun_induction dotted ts generalizing ss rest with
    | case1 =>
      obtain ⟨rfl, rfl⟩ := Prod.mk.inj (Except.ok.inj h)
      exact ⟨[], rfl, .nil, (Option.some_ne_none _).symm⟩
    | case2 => cases h
    | case3 => cases h
    | case4 => cases h
    | case5 p hp q ts s hs ss' behind heq ih =>
      obtain ⟨rfl, rfl⟩ := Prod.mk.inj (Except.ok.inj h)
      obtain ⟨used, rfl, hof, hrest⟩ := ih heq
      refine ⟨p :: q :: used, rfl, ?_, hrest⟩
      rw [Placed.tokens, List.map_cons, List.map_cons, hp]
      exact .cons (nextSegment?_eq_some_iff.1 hs) hof
    | case6 p ts hp =>
      obtain ⟨rfl, rfl⟩ := Prod.mk.inj (Except.ok.inj h)
      exact ⟨[], rfl, .nil, by simpa using hp⟩
  · rintro ⟨used, rfl, hof, hrest⟩
    generalize hw : Placed.tokens used = w at hof
    induction hof generalizing used with
    | nil =>
      obtain rfl := List.map_eq_nil_iff.1 hw
      exact dotted_of_ne_dot hrest
    | cons h _ ih =>
      obtain ⟨p, used, rfl, hp, hw⟩ := List.map_eq_cons_iff.1 hw
      obtain ⟨q, used, rfl, hq, hw⟩ := List.map_eq_cons_iff.1 hw
      rw [← hq, ← nextSegment?_eq_some_iff] at h
      simp [dotted, hp, h, ih used hw]

theorem reads_path_cons {what : Expectation} {t : Placed} {p : Path} :
    (path what (t :: ts)).Reads p rest ↔
      ∃ s ss, FirstOf t.token s ∧ dotted ts = .ok (ss, rest) ∧ p = ⟨s :: ss⟩ := by
  simp only [← firstSegment?_eq_some_iff]
  unfold path
  dsimp only
  split
  · rename_i kw hkw
    simp [firstSegment?, hkw]
  · rcases hs : firstSegment? t.token with - | s
    · simp
    · dsimp only
      split
      · rename_i e he
        simp [he]
      · rename_i ss behind hok
        simp only [reads_ok, hok, Except.ok.injEq, Prod.mk.injEq, Option.some.injEq]
        constructor
        · rintro ⟨rfl, rfl⟩
          exact ⟨s, ss, rfl, ⟨rfl, rfl⟩, rfl⟩
        · rintro ⟨_, _, rfl, ⟨rfl, rfl⟩, rfl⟩
          exact ⟨rfl, rfl⟩

/-- A path is read up to its last dot. -/
theorem reads_path_iff {what : Expectation} {p : Path} :
    (path what ts).Reads p rest ↔
      ∃ used, ts = used ++ rest ∧ PathOf (Placed.tokens used) p ∧
        nextToken? rest ≠ some .dot := by
  constructor
  · intro h
    rcases ts with - | ⟨t, ts⟩
    · exact (reads_error _ h).elim
    · obtain ⟨s, ss, hs, hdotted, rfl⟩ := reads_path_cons.1 h
      obtain ⟨used, rfl, hof, hrest⟩ := dotted_eq_ok_iff.1 hdotted
      exact ⟨t :: used, rfl, .intro hs hof, hrest⟩
  · rintro ⟨used, rfl, hof, hrest⟩
    generalize hw : Placed.tokens used = w at hof
    obtain ⟨hs, hof⟩ := hof
    obtain ⟨t, used, rfl, rfl, rfl⟩ := List.map_eq_cons_iff.1 hw
    exact reads_path_cons.2 ⟨_, _, hs, dotted_eq_ok_iff.2 ⟨used, rfl, hof, hrest⟩, rfl⟩

theorem exists_of_pathOf {p : Path} (h : PathOf (Placed.tokens ts) p) :
    ∃ t used, ts = t :: used ∧ ∃ s, FirstOf t.token s := by
  generalize hw : Placed.tokens ts = w at h
  obtain ⟨hs, -⟩ := h
  obtain ⟨t, used, rfl, rfl, -⟩ := List.map_eq_cons_iff.1 hw
  exact ⟨t, used, rfl, _, hs⟩

/-! ### Literals -/

theorem atomicLiteral?_eq_some_iff {t : Token} {l : Literal} :
    atomicLiteral? t = some l ↔ LiteralOf [t] l := by
  constructor
  · intro h
    unfold atomicLiteral? at h
    split at h <;> cases h
    · exact .number _
    · exact .string _
    · exact .boolean _
    · exact .null
    · exact .now
    · exact .today
  · intro h
    generalize hw : [t] = w at h
    cases h <;> simp_all [atomicLiteral?]

theorem exists_of_literalOf {w : List Token} {l : Literal} (h : LiteralOf w l) :
    ∃ t v, w = t :: v ∧ startsLiteral t = true := by
  cases h with
  | list _ => exact ⟨_, _, rfl, rfl⟩
  | object _ _ => exact ⟨_, _, rfl, rfl⟩
  | _ => exact ⟨_, _, rfl, rfl⟩

/-- The next token of a list that begins with a literal. -/
theorem startsLiteral_of_literalOf {used : List Placed} {w : List Token} {l : Literal}
    (h : LiteralOf w l) (hw : Placed.tokens used = w) (rest : List Placed) :
    ∃ t, nextToken? (used ++ rest) = some t ∧ startsLiteral t = true := by
  obtain ⟨t, v, rfl, ht⟩ := exists_of_literalOf h
  obtain ⟨p, used, rfl, rfl, -⟩ := List.map_eq_cons_iff.1 hw
  exact ⟨p.token, rfl, ht⟩

theorem ne_rightBracket_of_literalOf {used : List Placed} {w : List Token} {l : Literal}
    (h : LiteralOf w l) (hw : Placed.tokens used = w) (rest : List Placed) :
    nextToken? (used ++ rest) ≠ some .rightBracket := by
  obtain ⟨t, hnext, ht⟩ := startsLiteral_of_literalOf h hw rest
  rw [hnext]
  rintro ⟨⟩
  cases ht

theorem objectKey?_eq_some_iff {t : Token} {key : String} :
    objectKey? t = some key ↔ KeyOf t key := by
  constructor
  · intro h
    unfold objectKey? at h
    split at h <;> cases h
    · exact .name _
    · exact .quoted _
    · exact .keyword _
  · rintro (_ | _ | _) <;> rfl

/-- A literal that begins with a bracket goes on to the closing one. -/
theorem reads_literal_cons {t : Placed} {l : Literal} :
    (literal (t :: ts)).Reads l rest ↔
      (t.token = .leftBracket ∧ ∃ items, (listItems ts).Reads items rest ∧ .array items = l) ∨
      (t.token = .leftBrace ∧
        ∃ pairs, (objectPairs ts).Reads pairs rest ∧ .object (Fields.ofPairs pairs) = l) ∨
      LiteralOf [t.token] l ∧ ts = rest := by
  rw [← atomicLiteral?_eq_some_iff, literal]
  by_cases hbracket : t.token = .leftBracket
  · simp [hbracket, atomicLiteral?]
  · by_cases hbrace : t.token = .leftBrace
    · simp [hbrace, atomicLiteral?]
    · rcases hl : atomicLiteral? t.token with - | l <;> simp [hbracket, hbrace]

/-- A literal of one token is read as itself. -/
theorem reads_of_atomic {t : Token} {l : Literal} (h : LiteralOf [t] l) (used rest : List Placed)
    (hw : Placed.tokens used = [t]) : (literal (used ++ rest)).Reads l rest := by
  obtain ⟨p, used, rfl, rfl, hused⟩ := List.map_eq_cons_iff.1 hw
  obtain rfl := List.map_eq_nil_iff.1 hused
  exact reads_literal_cons.2 (.inr (.inr ⟨h, rfl⟩))

theorem reads_listItems_iff {items : List Literal} :
    (listItems ts).Reads items rest ↔
      (∃ close, ts = close :: rest ∧ close.token = .rightBracket ∧ [] = items) ∨
      (nextToken? ts ≠ some .rightBracket ∧ ∃ l mid, (literal ts).Reads l mid ∧
        ∃ q behind, mid = q :: behind ∧
          ((q.token = .rightBracket ∧ behind = rest ∧ [l] = items) ∨
            q.token = .comma ∧
              ∃ more, (listItems behind).Reads more rest ∧ l :: more = items)) := by
  rcases ts with - | ⟨t, ts⟩
  · simp [listItems, literal]
  rw [listItems]
  by_cases ht : t.token = .rightBracket
  · simp [ht, and_comm]
  · rcases hread : literal (t :: ts) with e | item
    · simp [ht]
    · simp only [ht, if_false, exists_reads_ok]
      split
      · simp [*]
      · rename_i q behind hrest
        by_cases hq : q.token = .rightBracket
        · simp [ht, hq, hrest, and_assoc, and_comm]
        · by_cases hc : q.token = .comma <;> simp [ht, hq, hc, hrest, and_assoc]

theorem reads_objectPairs_cons {t : Placed} {pairs : List (String × Literal)} :
    (objectPairs (t :: ts)).Reads pairs rest ↔
      (t.token = .rightBrace ∧ [] = pairs ∧ ts = rest) ∨
      ∃ key, KeyOf t.token key ∧ ∃ c value, ts = c :: value ∧ c.token = .colon ∧
        ∃ l mid, (literal value).Reads l mid ∧
          ∃ q behind, mid = q :: behind ∧
            ((q.token = .rightBrace ∧ [(key, l)] = pairs ∧ behind = rest) ∨
              q.token = .comma ∧
                ∃ more, (objectPairs behind).Reads more rest ∧ (key, l) :: more = pairs) := by
  simp only [← objectKey?_eq_some_iff]
  rw [objectPairs]
  by_cases ht : t.token = .rightBrace
  · simp [ht, objectKey?]
  · simp only [ht, if_false, false_and, false_or]
    rcases hkey : objectKey? t.token with - | key
    · simp
    · rcases ts with - | ⟨c, value⟩
      · simp
      · simp only [List.cons.injEq, and_assoc, exists_and_left, exists_eq_left', Option.some.injEq]
        by_cases hc : c.token = .colon
        · rcases hread : literal value with e | item
          · simp [hc]
          · simp only [hc, if_true, true_and, exists_reads_ok]
            split
            · simp [*]
            · rename_i q behind hrest
              by_cases hq : q.token = .rightBrace
              · simp [hq, hrest, and_assoc]
              · by_cases hc : q.token = .comma <;> simp [hq, hc, hrest, and_assoc]
        · simp [hc]

mutual

/-- What is read as a literal is one. -/
theorem literalOf_of_reads : ∀ (ts : List Placed) {rest : List Placed} {l : Literal},
    (literal ts).Reads l rest → ∃ used, ts = used ++ rest ∧ LiteralOf (Placed.tokens used) l
  | [], _, _, h => by
    rw [literal] at h
    exact (reads_error _ h).elim
  | t :: ts, _, _, h => by
    rcases reads_literal_cons.1 h with
      ⟨ht, items, hitems, rfl⟩ | ⟨ht, pairs, hpairs, rfl⟩ | ⟨hof, rfl⟩
    · obtain ⟨used, close, rfl, hclose, hof⟩ := itemsOf_of_reads ts hitems
      refine ⟨t :: (used ++ [close]), by simp, ?_⟩
      simpa [ht, hclose] using LiteralOf.list hof
    · obtain ⟨used, close, rfl, hclose, hof⟩ := pairsOf_of_reads ts hpairs
      refine ⟨t :: (used ++ [close]), by simp, ?_⟩
      simpa [ht, hclose] using LiteralOf.object hof (Fields.collects_iff.2 rfl)
    · exact ⟨[t], rfl, hof⟩
termination_by ts => 2 * ts.length

theorem itemsOf_of_reads (ts : List Placed) {rest : List Placed} {items : List Literal}
    (h : (listItems ts).Reads items rest) : ∃ used close, ts = used ++ close :: rest ∧
      close.token = .rightBracket ∧ ItemsOf (Placed.tokens used) items := by
  rcases reads_listItems_iff.1 h with ⟨close, heq, hclose, rfl⟩ |
    ⟨-, l, mid, hl, q, behind, rfl, ⟨hq, rfl, rfl⟩ | ⟨hq, more, hmore, rfl⟩⟩
  · exact ⟨[], close, heq, hclose, .nil⟩
  · obtain ⟨used, heq, hof⟩ := literalOf_of_reads ts hl
    exact ⟨used, q, heq, hq, .last hof⟩
  · have hlt : behind.length + 1 < ts.length := hl.length_lt
    obtain ⟨used, heq, hof⟩ := literalOf_of_reads ts hl
    obtain ⟨used', close, hbehind, hclose, hof'⟩ := itemsOf_of_reads behind hmore
    refine ⟨used ++ q :: used', close, by simp [heq, hbehind], hclose, ?_⟩
    simpa [hq] using ItemsOf.cons hof hof'
termination_by 2 * ts.length + 1

theorem pairsOf_of_reads : ∀ (ts : List Placed) {rest : List Placed}
    {pairs : List (String × Literal)}, (objectPairs ts).Reads pairs rest →
      ∃ used close, ts = used ++ close :: rest ∧ close.token = .rightBrace ∧
        PairsOf (Placed.tokens used) pairs
  | [], _, _, h => by
    rw [objectPairs] at h
    exact (reads_error _ h).elim
  | t :: ts, _, _, h => by
    rcases reads_objectPairs_cons.1 h with ⟨ht, rfl, rfl⟩ |
      ⟨key, hkey, c, value, rfl, hc, l, mid, hl, q, behind, rfl,
        ⟨hq, rfl, rfl⟩ | ⟨hq, more, hmore, rfl⟩⟩
    · exact ⟨[], t, rfl, ht, .nil⟩
    · obtain ⟨used, rfl, hof⟩ := literalOf_of_reads value hl
      refine ⟨t :: c :: used, q, rfl, hq, ?_⟩
      simpa [hc] using PairsOf.last hkey hof
    · have hlt : behind.length + 1 < value.length := hl.length_lt
      obtain ⟨used, rfl, hof⟩ := literalOf_of_reads value hl
      obtain ⟨used', close, rfl, hclose, hof'⟩ := pairsOf_of_reads behind hmore
      refine ⟨t :: c :: used ++ q :: used', close, by simp, hclose, ?_⟩
      simpa [hq, hc] using PairsOf.cons hkey hof hof'
termination_by ts => 2 * ts.length + 1

end

mutual

/-- A literal is read as itself, whatever follows it. -/
theorem reads_of_literalOf : ∀ {w : List Token} {l : Literal}, LiteralOf w l →
    ∀ used rest, Placed.tokens used = w → (literal (used ++ rest)).Reads l rest
  | _, _, .number n, used, rest, hw => reads_of_atomic (.number n) used rest hw
  | _, _, .string s, used, rest, hw => reads_of_atomic (.string s) used rest hw
  | _, _, .boolean b, used, rest, hw => reads_of_atomic (.boolean b) used rest hw
  | _, _, .null, used, rest, hw => reads_of_atomic .null used rest hw
  | _, _, .now, used, rest, hw => reads_of_atomic .now used rest hw
  | _, _, .today, used, rest, hw => reads_of_atomic .today used rest hw
  | _, _, .list h, used, rest, hw => by
    obtain ⟨first, used, rfl, hfirst, hw⟩ := List.map_eq_cons_iff.1 hw
    obtain ⟨used, behind, rfl, hused, hbehind⟩ := List.map_eq_append_iff.1 hw
    obtain ⟨close, rfl, hclose⟩ := List.map_eq_singleton_iff.1 hbehind
    rw [List.cons_append, List.append_assoc]
    have hitems := reads_of_itemsOf h used close rest hused hclose
    exact reads_literal_cons.2 (.inl ⟨hfirst, _, hitems, rfl⟩)
  | _, _, .object h hfields, used, rest, hw => by
    obtain ⟨first, used, rfl, hfirst, hw⟩ := List.map_eq_cons_iff.1 hw
    obtain ⟨used, behind, rfl, hused, hbehind⟩ := List.map_eq_append_iff.1 hw
    obtain ⟨close, rfl, hclose⟩ := List.map_eq_singleton_iff.1 hbehind
    rw [List.cons_append, List.append_assoc]
    have hpairs := reads_of_pairsOf h used close rest hused hclose
    exact reads_literal_cons.2 (.inr (.inl ⟨hfirst, _, hpairs,
      congrArg Literal.object (Fields.collects_iff.1 hfields)⟩))

theorem reads_of_itemsOf : ∀ {w : List Token} {items : List Literal}, ItemsOf w items →
    ∀ used close rest, Placed.tokens used = w → close.token = .rightBracket →
      (listItems (used ++ close :: rest)).Reads items rest
  | _, _, .nil, used, close, rest, hw, hclose => by
    obtain rfl := List.map_eq_nil_iff.1 hw
    exact reads_listItems_iff.2 (.inl ⟨close, rfl, hclose, rfl⟩)
  | _, _, .last h, used, close, rest, hw, hclose => by
    have hl := reads_of_literalOf h used (close :: rest) hw
    exact reads_listItems_iff.2 (.inr ⟨ne_rightBracket_of_literalOf h hw _, _, _, hl, close, rest,
      rfl, .inl ⟨hclose, rfl, rfl⟩⟩)
  | _, _, .cons h hrest, used, close, rest, hw, hclose => by
    obtain ⟨used, used', rfl, hused, hw⟩ := List.map_eq_append_iff.1 hw
    obtain ⟨comma, used', rfl, hcomma, hused'⟩ := List.map_eq_cons_iff.1 hw
    have hl := reads_of_literalOf h used (comma :: used' ++ close :: rest) hused
    have hmore := reads_of_itemsOf hrest used' close rest hused' hclose
    rw [List.append_assoc]
    exact reads_listItems_iff.2 (.inr ⟨ne_rightBracket_of_literalOf h hused _, _, _, hl, comma, _,
      rfl, .inr ⟨hcomma, _, hmore, rfl⟩⟩)

theorem reads_of_pairsOf : ∀ {w : List Token} {pairs : List (String × Literal)},
    PairsOf w pairs → ∀ used close rest, Placed.tokens used = w → close.token = .rightBrace →
      (objectPairs (used ++ close :: rest)).Reads pairs rest
  | _, _, .nil, used, close, rest, hw, hclose => by
    obtain rfl := List.map_eq_nil_iff.1 hw
    exact reads_objectPairs_cons.2 (.inl ⟨hclose, rfl, rfl⟩)
  | _, _, .last hkey h, used, close, rest, hw, hclose => by
    obtain ⟨t, tail, rfl, rfl, htail⟩ := List.map_eq_cons_iff.1 hw
    obtain ⟨colon, used, rfl, hcolon, hused⟩ := List.map_eq_cons_iff.1 htail
    have hl := reads_of_literalOf h used (close :: rest) hused
    exact reads_objectPairs_cons.2 (.inr ⟨_, hkey, colon, _, rfl, hcolon, _, _, hl, close, rest,
      rfl, .inl ⟨hclose, rfl, rfl⟩⟩)
  | _, _, .cons hkey h hrest, used, close, rest, hw, hclose => by
    obtain ⟨pair, behind, rfl, hpair, hbehind⟩ := List.map_eq_append_iff.1 hw
    obtain ⟨comma, used', rfl, hcomma, hused'⟩ := List.map_eq_cons_iff.1 hbehind
    obtain ⟨t, tail, rfl, rfl, htail⟩ := List.map_eq_cons_iff.1 hpair
    obtain ⟨colon, used, rfl, hcolon, hused⟩ := List.map_eq_cons_iff.1 htail
    have hl := reads_of_literalOf h used (comma :: used' ++ close :: rest) hused
    have hmore := reads_of_pairsOf hrest used' close rest hused' hclose
    rw [List.append_assoc]
    exact reads_objectPairs_cons.2 (.inr ⟨_, hkey, colon, _, rfl, hcolon, _, _, hl, comma, _,
      rfl, .inr ⟨hcomma, _, hmore, rfl⟩⟩)

end

/-- **The reader of literals reads the literals of the grammar**, whatever follows them. -/
theorem reads_literal_iff {l : Literal} :
    (literal ts).Reads l rest ↔ ∃ used, ts = used ++ rest ∧ LiteralOf (Placed.tokens used) l := by
  constructor
  · exact literalOf_of_reads ts
  · rintro ⟨used, rfl, hof⟩
    exact reads_of_literalOf hof used rest rfl

theorem reads_literalFor_iff {what : Expectation} {l : Literal} :
    (literalFor what ts).Reads l rest ↔
      ∃ used, ts = used ++ rest ∧ LiteralOf (Placed.tokens used) l := by
  rw [← reads_literal_iff]
  unfold literalFor
  split
  · rfl
  · rename_i hstart
    refine iff_of_false (reads_error _) fun h => hstart ?_
    obtain ⟨used, rfl, hof⟩ := reads_literal_iff.1 h
    obtain ⟨t, hnext, ht⟩ := startsLiteral_of_literalOf hof rfl rest
    rw [hnext, Option.any_some, ht]

/-! ### Positions and words -/

theorem reads_position_iff {what : Expectation} {i : Int} :
    (position what ts).Reads i rest ↔
      ∃ t n, ts = t :: rest ∧ t.token = .number n ∧ n.position? = some i := by
  rcases ts with - | ⟨t, ts⟩
  · simp [position]
  unfold position
  dsimp only
  split
  · rename_i n hn
    rcases hi : n.position? with - | j <;> simp [hn, hi, and_comm]
  · rename_i hne
    simp only [reads_error, false_iff]
    rintro ⟨_, n, ⟨⟩, hn, -⟩
    exact hne n hn

theorem reads_keyword_iff {kw : Keyword} {what : Expectation} {u : Unit} :
    (keyword kw what ts).Reads u rest ↔ ∃ t, ts = t :: rest ∧ t.token = .keyword kw := by
  rcases ts with - | ⟨t, ts⟩
  · simp [keyword]
  · by_cases ht : t.token = .keyword kw <;> simp [keyword, ht]

end Read

end MetadataRules
