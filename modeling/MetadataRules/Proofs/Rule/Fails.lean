/-
MetadataRules/Proofs/Rule/Fails.lean

Where a reader gives up.

`FailsAt r place` says that the answer `r` is a complaint about `place`, the
tokens from the first one that does not fit.  What the complaint says does not
matter here.  As for what is read, there is one equivalence for each reader: it
fails at a token of its own, or where a reader that it calls fails.

A reader of literals fails at the same place whether it is asked for a certain
value or for any (`Read.failsAt_literalFor_iff`), since both start with the same
tokens.
-/
import MetadataRules.Proofs.Rule.Condition

namespace MetadataRules

open Grammar Attempt

/-- The answer is a complaint about the tokens of a place. -/
def FailsAt {β : Type} (r : Except ParseFault β) (place : List Placed) : Prop :=
  ∃ complaint, r = .error ⟨complaint, place⟩

namespace Attempt

variable {α β : Type} {m n : Nat} {place : List Placed}

@[simp] theorem failsAt_error {fault : ParseFault} :
    FailsAt (.error fault : Except ParseFault α) place ↔ fault.place = place := by
  constructor
  · rintro ⟨complaint, h⟩
    rw [Except.error.inj h]
  · rintro rfl
    exact ⟨fault.complaint, rfl⟩

@[simp] theorem failsAt_ok {a : α} : ¬ FailsAt (.ok a : Except ParseFault α) place := by
  rintro ⟨complaint, h⟩
  cases h

@[simp] theorem failsAt_widen {h : m ≤ n} {r : Reading α m} :
    FailsAt (r.widen h) place ↔ FailsAt r place := by
  cases r with
  | error fault => exact failsAt_error.trans failsAt_error.symm
  | ok p => exact iff_of_false failsAt_ok failsAt_ok

@[simp] theorem failsAt_behind {r : Reading α n} : FailsAt r.behind place ↔ FailsAt r place :=
  failsAt_widen

@[simp] theorem failsAt_within {h : m < n} {r : Reading α m} :
    FailsAt (Attempt.within h r) place ↔ FailsAt r place :=
  failsAt_widen

@[simp] theorem failsAt_after {p : Parsed β n} {r : Reading α (p.rest.length + 1)} :
    FailsAt (Attempt.after p r) place ↔ FailsAt r place :=
  failsAt_widen

@[simp] theorem failsAt_map {f : β → α} {r : Reading β n} :
    FailsAt (Attempt.map f r) place ↔ FailsAt r place := by
  cases r with
  | error fault => exact failsAt_error.trans failsAt_error.symm
  | ok p => exact iff_of_false failsAt_ok failsAt_ok

end Attempt

namespace Read

variable {ts place : List Placed} {p : Path}

@[simp] theorem place_unexpected (what : Expectation) (ts : List Placed) :
    (unexpected what ts).place = ts := rfl

/-! ### Paths -/

/-- Nothing that can stand behind a dot comes next. -/
def LacksStep (ts : List Placed) : Prop := (nextToken? ts).bind nextSegment? = none

/-- No path comes next. -/
def LacksPath (ts : List Placed) : Prop := (nextToken? ts).bind firstSegment? = none

theorem failsAt_dotted_iff :
    FailsAt (dotted ts) place ↔
      ∃ t behind, ts = t :: behind ∧ t.token = .dot ∧
        (LacksStep behind ∧ behind = place ∨
          ∃ u beyond, behind = u :: beyond ∧ (∃ s, NextOf u.token s) ∧
            FailsAt (dotted beyond) place) := by
  simp only [LacksStep, ← nextSegment?_eq_some_iff]
  rcases ts with - | ⟨t, behind⟩
  · simp [dotted]
  · by_cases ht : t.token = .dot
    · rcases behind with - | ⟨u, beyond⟩
      · simp [dotted, ht]
      · rcases hs : nextSegment? u.token with - | s
        · simp [dotted, ht, hs]
        · rcases hrest : dotted beyond with e | ⟨ss, rest⟩ <;> simp [dotted, ht, hs, hrest]
    · rw [dotted.eq_def]
      simp [ht]

theorem failsAt_path_iff {what : Expectation} :
    FailsAt (path what ts) place ↔
      LacksPath ts ∧ ts = place ∨
      ∃ t behind, ts = t :: behind ∧ (∃ s, FirstOf t.token s) ∧
        FailsAt (dotted behind) place := by
  simp only [LacksPath, ← firstSegment?_eq_some_iff]
  rcases ts with - | ⟨t, behind⟩
  · simp [path]
  · unfold path
    dsimp only
    split
    · rename_i kw hkw
      simp [hkw, firstSegment?]
    · rcases hs : firstSegment? t.token with - | s
      · simp [hs]
      · dsimp only
        split <;> simp [*]

theorem failsAt_keyword_iff {kw : Keyword} {what : Expectation} :
    FailsAt (keyword kw what ts) place ↔ nextToken? ts ≠ some (.keyword kw) ∧ ts = place := by
  rcases ts with - | ⟨t, behind⟩
  · simp [keyword]
  · by_cases ht : t.token = .keyword kw <;> simp [keyword, ht]

/-! ### Literals -/

/-- No literal comes next. -/
def LacksLiteral (ts : List Placed) : Prop := (nextToken? ts).any startsLiteral = false

theorem failsAt_literal_iff :
    FailsAt (literal ts) place ↔
      LacksLiteral ts ∧ ts = place ∨
      ∃ t behind, ts = t :: behind ∧
        (t.token = .leftBracket ∧ FailsAt (listItems behind) place ∨
          t.token = .leftBrace ∧ FailsAt (objectPairs behind) place) := by
  rcases ts with - | ⟨t, behind⟩
  · simp [literal, LacksLiteral]
  · rw [literal]
    by_cases hbracket : t.token = .leftBracket
    · simp [hbracket, LacksLiteral, startsLiteral]
    · by_cases hbrace : t.token = .leftBrace
      · simp [hbrace, LacksLiteral, startsLiteral]
      · have hstarts : startsLiteral t.token = (atomicLiteral? t.token).isSome := by
          unfold startsLiteral
          split
          · exact absurd (by assumption) hbracket
          · exact absurd (by assumption) hbrace
          · rfl
        rcases hl : atomicLiteral? t.token with - | l <;>
          simp [hbracket, hbrace, LacksLiteral, hstarts, hl]

theorem failsAt_literalFor_iff {what : Expectation} :
    FailsAt (literalFor what ts) place ↔ FailsAt (literal ts) place := by
  unfold literalFor
  split
  · rfl
  · rename_i hstart
    have hlacks : LacksLiteral ts := Bool.eq_false_iff.2 hstart
    rw [failsAt_error, place_unexpected]
    refine ⟨fun h => failsAt_literal_iff.2 (.inl ⟨hlacks, h⟩), fun h => ?_⟩
    rcases failsAt_literal_iff.1 h with ⟨-, h⟩ | ⟨t, behind, rfl, ⟨ht, -⟩ | ⟨ht, -⟩⟩
    · exact h
    · rw [LacksLiteral, nextToken?_cons, ht] at hlacks
      cases hlacks
    · rw [LacksLiteral, nextToken?_cons, ht] at hlacks
      cases hlacks

/-- Behind an item or a value comes neither a comma nor the closing bracket. -/
def LacksSeparator (close : Token) (ts : List Placed) : Prop :=
  nextToken? ts ≠ some close ∧ nextToken? ts ≠ some .comma

/-- The reader of an item or of a value gives up, there is nothing behind what it read that
separates it from what follows, or the reader of what follows the comma gives up. -/
def FailsEntry (close : Token) (fails : List Placed → List Placed → Prop)
    (ts place : List Placed) : Prop :=
  FailsAt (literal ts) place ∨
    ∃ l mid, (literal ts).Reads l mid ∧
      (LacksSeparator close mid ∧ mid = place ∨
        ∃ q behind, mid = q :: behind ∧ q.token = .comma ∧ fails behind place)

theorem failsAt_listItems_iff :
    FailsAt (listItems ts) place ↔
      nextToken? ts ≠ some .rightBracket ∧
        FailsEntry .rightBracket (fun ts => FailsAt (listItems ts)) ts place := by
  unfold FailsEntry
  rcases ts with - | ⟨t, ts⟩
  · simp [listItems, literal]
  · rw [listItems]
    by_cases ht : t.token = .rightBracket
    · simp [ht]
    · rcases hread : literal (t :: ts) with e | item
      · simp [ht]
      · simp only [ht, if_false, exists_reads_ok, nextToken?_cons, ne_eq, Option.some.injEq,
          not_false_eq_true, true_and, failsAt_ok, false_or]
        split
        · simp [*, LacksSeparator]
        · rename_i q behind hrest
          by_cases hq : q.token = .rightBracket
          · simp [hq, hrest, LacksSeparator]
          · by_cases hc : q.token = .comma <;> simp [hq, hc, hrest, LacksSeparator]

/-- No key of an object comes next. -/
def LacksKey (ts : List Placed) : Prop := (nextToken? ts).bind objectKey? = none

theorem failsAt_objectPairs_iff :
    FailsAt (objectPairs ts) place ↔
      nextToken? ts ≠ some .rightBrace ∧
        (LacksKey ts ∧ ts = place ∨
          ∃ t value, ts = t :: value ∧ (∃ key, KeyOf t.token key) ∧
            (nextToken? value ≠ some .colon ∧ value = place ∨
              ∃ c value', value = c :: value' ∧ c.token = .colon ∧
                FailsEntry .rightBrace (fun ts => FailsAt (objectPairs ts)) value' place)) := by
  unfold FailsEntry
  simp only [LacksKey, ← objectKey?_eq_some_iff]
  rcases ts with - | ⟨t, ts⟩
  · simp [objectPairs]
  · rw [objectPairs]
    by_cases ht : t.token = .rightBrace
    · simp [ht]
    · rcases hkey : objectKey? t.token with - | key
      · simp [ht, hkey]
      · rcases ts with - | ⟨c, value⟩
        · simp [ht, hkey]
        · by_cases hc : c.token = .colon
          · rcases hread : literal value with e | item
            · simp [ht, hkey, hc, hread]
            · simp only [ht, hc, hread, if_true, if_false]
              split
              · simp [*, LacksSeparator]
              · rename_i q behind hrest
                by_cases hq : q.token = .rightBrace
                · simp [ht, hkey, hc, hread, hq, hrest, LacksSeparator]
                · by_cases hcomma : q.token = .comma <;>
                    simp [ht, hkey, hc, hread, hq, hcomma, hrest, LacksSeparator]
          · simp [ht, hkey, hc]

/-! ### Tests of one path -/

/-- What comes next asks for a literal behind it: a comparison sign, `CONTAINS` or `IN`. -/
def asksLiteral (t : Token) : Bool :=
  (comparison? t).isSome || t == .keyword .contains || t == .keyword .in_

theorem exists_of_asksMember {t : Placed} (ht : t.token = .keyword .contains ∨
    t.token = .keyword .in_) (p : Path) :
    ∃ what f, ∀ ts, membership? p (t :: ts) = some (((literalFor what ts).map f).behind) := by
  rcases ht with ht | ht
  · exact ⟨.containedValue p, .contains p, fun ts => by simp only [membership?, ht]⟩
  · exact ⟨.valueList p, fun l => .oneOf p l.entries, fun ts => by simp only [membership?, ht]⟩

theorem exists_of_asksLiteral {t : Placed} (ht : asksLiteral t.token = true) (p : Path) :
    ∃ what f, ∀ ts, predicate p (t :: ts) = ((literalFor what ts).map f).behind.behind := by
  rcases hop : comparison? t.token with - | op
  · have hmember : t.token = .keyword .contains ∨ t.token = .keyword .in_ := by
      simpa [asksLiteral, hop] using ht
    obtain ⟨what, f, h⟩ := exists_of_asksMember hmember p
    exact ⟨what, f, fun ts => by rw [predicate.eq_def, h]⟩
  · have hmember : ∀ ts, membership? p (t :: ts) = none := by
      intro ts
      rw [membership?_eq_none_iff, nextToken?_cons]
      constructor <;> intro heq <;> rw [Option.some.inj heq] at hop <;> cases hop
    exact ⟨.comparedValue p op, .compare p op, fun ts => by
      rw [predicate.eq_def, hmember]
      simp only [hop]⟩

/-- `NOT` behind a path with neither `EXISTS`, `CONTAINS` nor `IN` behind it. -/
def LacksNegatable (ts : List Placed) : Prop :=
  nextToken? ts ≠ some (.keyword .exists_) ∧ nextToken? ts ≠ some (.keyword .contains) ∧
    nextToken? ts ≠ some (.keyword .in_)

/-- The tests of a path: a literal that is asked for, a literal that is asked for behind `NOT`, or
a word that ends the test. -/
theorem failsAt_predicate_iff :
    FailsAt (predicate p ts) place ↔
      ∃ t behind, ts = t :: behind ∧
        (asksLiteral t.token = true ∧ FailsAt (literal behind) place ∨
          t.token = .keyword .not ∧
            (LacksNegatable behind ∧ ts = place ∨
              ∃ u beyond, behind = u :: beyond ∧
                (u.token = .keyword .contains ∨ u.token = .keyword .in_) ∧
                FailsAt (literal beyond) place)) := by
  rcases ts with - | ⟨t, behind⟩
  · simp [predicate, membership?]
  by_cases hasks : asksLiteral t.token = true
  · obtain ⟨what, f, heq⟩ := exists_of_asksLiteral hasks p
    have hne : t.token ≠ .keyword .not := by
      intro ht
      rw [ht] at hasks
      cases hasks
    simp [heq, hasks, hne, failsAt_literalFor_iff]
  · have hsign : comparison? t.token = none := by
      rw [asksLiteral, Bool.or_eq_true, Bool.or_eq_true, not_or, not_or] at hasks
      exact Option.not_isSome_iff_eq_none.1 hasks.1.1
    have hmember : membership? p (t :: behind) = none := by
      simp only [asksLiteral, Bool.or_eq_true, beq_iff_eq, not_or] at hasks
      exact membership?_cons_eq_none rfl hasks.1.2 hasks.2
    simp only [predicate.eq_def p (t :: behind), hmember, hsign]
    split
    case h_1 ht => simp [ht, asksLiteral, comparison?]
    case h_2 ht =>
      rw [ht] at hasks
      rcases behind with - | ⟨u, beyond⟩
      · simp [membership?, ht, asksLiteral, comparison?, LacksNegatable]
      · by_cases hu : u.token = .keyword .contains ∨ u.token = .keyword .in_
        · obtain ⟨what, f, heq⟩ := exists_of_asksMember hu p
          have hlacks : ¬ LacksNegatable (u :: beyond) := by
            rintro ⟨-, hcontains, hin⟩
            exact hu.elim (fun h => hcontains (congrArg some h)) fun h => hin (congrArg some h)
          simp [heq, hasks, ht, hu, hlacks, failsAt_literalFor_iff]
        · obtain ⟨hcontains, hin⟩ := not_or.1 hu
          rw [membership?_cons_eq_none rfl hcontains hin]
          by_cases hexists : u.token = .keyword .exists_ <;>
            simp [hasks, ht, hcontains, hin, hexists, LacksNegatable]
    case h_3 hexists hnot => simp [hasks, eq_false hnot]

theorem failsAt_pathTest_iff :
    FailsAt (pathTest ts) place ↔
      FailsAt (path .fieldPath ts) place ∨
      ∃ p mid, (path .fieldPath ts).Reads p mid ∧ FailsAt (predicate p mid) place := by
  unfold pathTest
  rcases path .fieldPath ts with e | p
  · simp
  · simp only [exists_reads_ok, failsAt_after, failsAt_ok, false_or]

/-! ### Conditions -/

theorem failsAt_presence_iff {what : Expectation} {negated : Bool} :
    FailsAt (presence what negated ts) place ↔ FailsAt (path what ts) place := by
  rw [presence, failsAt_map]

theorem failsAt_disjunction_iff :
    FailsAt (disjunction ts) place ↔
      FailsAt (conjunction ts) place ∨
      ∃ left mid, (conjunction ts).Reads left mid ∧ FailsAt (orRest left mid) place := by
  rw [disjunction]
  rcases conjunction ts with e | left
  · simp
  · simp only [exists_reads_ok, failsAt_after, failsAt_ok, false_or]

theorem failsAt_orRest_iff {left : Condition} :
    FailsAt (orRest left ts) place ↔
      ∃ t behind, ts = t :: behind ∧ t.token = .keyword .or ∧
        (FailsAt (conjunction behind) place ∨
          ∃ right mid, (conjunction behind).Reads right mid ∧
            FailsAt (orRest (.or left right) mid) place) := by
  rcases ts with - | ⟨t, behind⟩ <;> rw [orRest]
  · simp
  · by_cases ht : t.token = .keyword .or
    · rcases hright : conjunction behind with e | right
      · simp [ht, hright]
      · simp [ht, hright]
    · simp [ht]

theorem failsAt_conjunction_iff :
    FailsAt (conjunction ts) place ↔
      FailsAt (unary ts) place ∨
      ∃ left mid, (unary ts).Reads left mid ∧ FailsAt (andRest left mid) place := by
  rw [conjunction]
  rcases unary ts with e | left
  · simp
  · simp only [exists_reads_ok, failsAt_after, failsAt_ok, false_or]

theorem failsAt_andRest_iff {left : Condition} :
    FailsAt (andRest left ts) place ↔
      ∃ t behind, ts = t :: behind ∧ t.token = .keyword .and ∧
        (FailsAt (unary behind) place ∨
          ∃ right mid, (unary behind).Reads right mid ∧
            FailsAt (andRest (.and left right) mid) place) := by
  rcases ts with - | ⟨t, behind⟩ <;> rw [andRest]
  · simp
  · by_cases ht : t.token = .keyword .and
    · rcases hright : unary behind with e | right
      · simp [ht, hright]
      · simp [ht, hright]
    · simp [ht]

theorem failsAt_unary_iff :
    FailsAt (unary ts) place ↔
      nextToken? ts ≠ some (.keyword .not) ∧ FailsAt (atom ts) place ∨
      ∃ t behind, ts = t :: behind ∧ t.token = .keyword .not ∧
        (nextToken? behind ≠ some (.keyword .has) ∧ FailsAt (unary behind) place ∨
          ∃ u beyond, behind = u :: beyond ∧ u.token = .keyword .has ∧
            FailsAt (path .pathAfterNotHas beyond) place) := by
  rcases ts with - | ⟨t, behind⟩ <;> rw [unary.eq_def]
  · simp
  · by_cases ht : t.token = .keyword .not
    · rcases behind with - | ⟨u, beyond⟩
      · simp [ht]
      · by_cases hu : u.token = .keyword .has
        · simp [ht, hu, failsAt_presence_iff]
        · simp [ht, hu]
    · simp [ht]

/-- A test begins with a path, with a parenthesis, with `HAS` or with `ANY`. -/
def startsAtom (t : Token) : Bool :=
  (firstSegment? t).isSome || t == .leftParen || t == .keyword .has || t == .keyword .any

theorem failsAt_atom_of_not_starts (h : (nextToken? ts).any startsAtom = false) :
    FailsAt (atom ts) place ↔ ts = place := by
  rcases ts with - | ⟨t, behind⟩
  · simp [atom]
  · rw [nextToken?_cons, Option.any_some] at h
    rw [atom.eq_def]
    dsimp only
    split <;> rename_i ht <;> first | (rw [ht] at h; cases h) | simp

section Atom

variable {t : Placed} {behind : List Placed}

theorem failsAt_atom_paren (ht : t.token = .leftParen) :
    FailsAt (atom (t :: behind)) place ↔
      FailsAt (disjunction behind) place ∨
        ∃ c, (disjunction behind).Reads c place ∧ nextToken? place ≠ some .rightParen := by
  rw [atom.eq_def]
  simp only [ht]
  rcases hinner : disjunction behind with e | inner
  · simp
  · simp only [failsAt_ok, false_or, reads_ok]
    split
    · rename_i hrest
      rw [failsAt_error, place_unexpected]
      constructor
      · rintro rfl
        exact ⟨_, ⟨rfl, hrest⟩, by simp⟩
      · rintro ⟨_, ⟨-, heq⟩, -⟩
        exact hrest.symm.trans heq
    · rename_i u beyond hrest
      by_cases hu : u.token = .rightParen
      · rw [if_pos hu]
        refine iff_of_false (by simp) ?_
        rintro ⟨_, ⟨-, rfl⟩, hne⟩
        exact hne (by rw [hrest, nextToken?_cons, hu])
      · rw [if_neg hu, failsAt_error, place_unexpected]
        constructor
        · rintro rfl
          exact ⟨_, ⟨rfl, hrest⟩, by simpa using hu⟩
        · rintro ⟨_, ⟨-, heq⟩, -⟩
          exact hrest.symm.trans heq

theorem failsAt_atom_has (ht : t.token = .keyword .has) :
    FailsAt (atom (t :: behind)) place ↔ FailsAt (path .pathAfterHas behind) place := by
  rw [atom.eq_def]
  simp only [ht, failsAt_behind, failsAt_presence_iff]

theorem failsAt_atom_any (ht : t.token = .keyword .any) :
    FailsAt (atom (t :: behind)) place ↔
      FailsAt (path .pathAfterAny behind) place ∨
        ∃ p mid, (path .pathAfterAny behind).Reads p mid ∧
          (nextToken? mid ≠ some (.keyword .where_) ∧ mid = place ∨
            ∃ w body, mid = w :: body ∧ w.token = .keyword .where_ ∧
              FailsAt (disjunction body) place) := by
  rw [atom.eq_def]
  simp only [ht]
  rcases hp : path .pathAfterAny behind with e | p
  · simp
  · simp only [failsAt_ok, false_or, exists_reads_ok]
    rcases hw : keyword .where_ (.whereAfterAny p.value) p.rest with e | w
    · obtain ⟨hne, heq⟩ := failsAt_keyword_iff.1 ⟨e.complaint, hw⟩
      refine failsAt_error.trans ⟨fun h => .inl ⟨hne, heq.trans h⟩, ?_⟩
      rintro (⟨-, h⟩ | ⟨w, body, hrest, hwhere, -⟩)
      · exact heq.symm.trans h
      · exact absurd (by rw [hrest, nextToken?_cons, hwhere]) hne
    · obtain ⟨u, hrest, hu⟩ := reads_keyword_iff.1 ⟨w, hw, rfl, rfl⟩
      simp [hrest, hu]

theorem failsAt_atom_path {s : Segment} (hs : FirstOf t.token s) :
    FailsAt (atom (t :: behind)) place ↔ FailsAt (pathTest (t :: behind)) place := by
  rw [atom.eq_def]
  generalize ht : t.token = u at hs
  cases hs <;> simp only [ht]

end Atom

/-- A whole condition: there is none, its reader gives up, or something is left behind it. -/
theorem failsAt_wholeCondition_iff :
    FailsAt (wholeCondition ts) place ↔
      nextToken? ts = none ∧ ts = place ∨
        nextToken? ts ≠ none ∧
          (FailsAt (disjunction ts) place ∨
            ∃ c, (disjunction ts).Reads c place ∧ nextToken? place ≠ none) := by
  rcases ts with - | ⟨t, behind⟩
  · simp [wholeCondition]
  · rw [wholeCondition]
    rcases disjunction (t :: behind) with e | c
    · simp
    · dsimp only
      split <;> simp [*] <;> rintro rfl <;> simp

end Read

end MetadataRules
