/-
MetadataRules/Rule/Phrase.lean

The phrases that conditions and actions are made of: paths, literals and
positions.

A path starts with a name, a quoted name or `@`; behind a dot every word is a
key and every whole number a position.  Lists and objects may end in a comma,
and an object that repeats a key keeps its first place and its last value.
-/
import MetadataRules.Rule.Reading

namespace MetadataRules

namespace Read

/-! ### Paths -/

/-- The segment that a token is at the start of a path. -/
def firstSegment? : Token → Option Segment
  | .identifier name => some (.key name)
  | .string s => some (.key s)
  | .at_ => some .current
  | _ => none

/-- The segment that a token is behind a dot. -/
def nextSegment? : Token → Option Segment
  | .identifier name => some (.key name)
  | .string s => some (.key s)
  | .keyword kw => some (.key kw.name)
  | .boolean true => some (.key "true")
  | .boolean false => some (.key "false")
  | .null => some (.key "null")
  | .number n => n.position?.map .index
  | _ => none

/-- The segments behind the first, and the tokens behind them. -/
def dotted : List Placed → Except ParseFault (List Segment × List Placed)
  | [] => .ok ([], [])
  | p :: ts =>
    if p.token = .dot then
      match ts with
      | [] => .error (unexpected .pathStep [])
      | q :: rest =>
        match nextSegment? q.token with
        | none => .error (unexpected .pathStep (q :: rest))
        | some s =>
          match dotted rest with
          | .error e => .error e
          | .ok (ss, behind) => .ok (s :: ss, behind)
    else .ok ([], p :: ts)

theorem length_dotted_le {ts behind : List Placed} {ss : List Segment}
    (h : dotted ts = .ok (ss, behind)) : behind.length ≤ ts.length := by
  fun_induction dotted ts generalizing ss behind with
  | case1 => simp_all
  | case2 => simp at h
  | case3 => simp at h
  | case4 => simp at h
  | case5 p hp q rest s hs ss' behind' heq ih =>
    simp only [Except.ok.injEq, Prod.mk.injEq] at h
    have := ih heq
    simp only [← h.2, List.length_cons]
    omega
  | case6 => simp_all

/-- Reads a path; `what` names it in a complaint. -/
def path (what : Expectation) (ts : List Placed) : Reading Path ts.length :=
  match ts with
  | [] => .error (unexpected what [])
  | p :: rest =>
    match p.token with
    | .keyword kw => .error ⟨.keywordAsPath what kw, p :: rest⟩
    | token =>
      match firstSegment? token with
      | none => .error (unexpected what (p :: rest))
      | some s =>
        match h : dotted rest with
        | .error e => .error e
        | .ok (ss, behind) =>
          .ok ⟨⟨s :: ss⟩, behind, Nat.lt_succ_of_le (length_dotted_le h)⟩

/-! ### Literals -/

/-- The key that a token is in an object. -/
def objectKey? : Token → Option String
  | .identifier name => some name
  | .string s => some s
  | .keyword kw => some kw.name
  | _ => none

/-- The literal that a token is by itself. -/
def atomicLiteral? : Token → Option Literal
  | .number n => some (.number n)
  | .string s => some (.string s)
  | .boolean b => some (.boolean b)
  | .null => some .null
  | .keyword .now => some .now
  | .keyword .today => some .today
  | _ => none

mutual

/-- Reads a literal. -/
def literal (ts : List Placed) : Reading Literal ts.length :=
  match ts with
  | [] => .error (unexpected .literal [])
  | p :: rest =>
    if p.token = .leftBracket then
      ((listItems rest).map Literal.array).behind
    else if p.token = .leftBrace then
      ((objectPairs rest).map fun pairs => .object (Fields.ofPairs pairs)).behind
    else match atomicLiteral? p.token with
      | some l => .ok (.single l p rest)
      | none => .error (unexpected .literal (p :: rest))
termination_by 2 * ts.length

/-- Reads the items of a list up to its closing bracket. -/
def listItems (ts : List Placed) : Reading (List Literal) ts.length :=
  match ts with
  | [] => .error (unexpected .closingBracket [])
  | p :: rest =>
    if p.token = .rightBracket then .ok (.single [] p rest)
    else match literal (p :: rest) with
      | .error e => .error e
      | .ok item =>
        match hitem : item.rest with
        | [] => .error (unexpected .listSeparator [])
        | q :: behind =>
          have hlt := item.separated hitem
          if q.token = .rightBracket then .within hlt (.ok (.empty [item.value] behind))
          else if q.token = .comma then
            .within hlt ((listItems behind).map (item.value :: ·)).behind
          else .error (unexpected .listSeparator (q :: behind))
termination_by 2 * ts.length + 1
decreasing_by all_goals (simp only [List.length_cons] at *; omega)

/-- Reads the pairs of an object up to its closing brace. -/
def objectPairs (ts : List Placed) : Reading (List (String × Literal)) ts.length :=
  match ts with
  | [] => .error (unexpected .objectKey [])
  | p :: rest =>
    if p.token = .rightBrace then .ok (.single [] p rest)
    else match objectKey? p.token with
      | none => .error (unexpected .objectKey (p :: rest))
      | some key =>
        match rest with
        | [] => .error (unexpected (.colon key) [])
        | c :: behindColon =>
          if c.token = .colon then
            match literal behindColon with
            | .error e => .error e
            | .ok item =>
              match hitem : item.rest with
              | [] => .error (unexpected .objectSeparator [])
              | q :: behind =>
                have hlt := item.separated hitem
                if q.token = .rightBrace then
                  (Attempt.within hlt (.ok (.empty [(key, item.value)] behind))).behind.behind
                else if q.token = .comma then
                  (Attempt.within hlt
                    ((objectPairs behind).map ((key, item.value) :: ·)).behind).behind.behind
                else .error (unexpected .objectSeparator (q :: behind))
          else .error (unexpected (.colon key) (c :: behindColon))
termination_by 2 * ts.length + 1
decreasing_by all_goals (simp only [List.length_cons] at *; omega)

end

/-- A literal starts with the token. -/
def startsLiteral : Token → Bool
  | .leftBracket | .leftBrace => true
  | t => (atomicLiteral? t).isSome

/-- Reads a literal; `what` names it where there is none. -/
def literalFor (what : Expectation) (ts : List Placed) : Reading Literal ts.length :=
  if (nextToken? ts).any startsLiteral then literal ts
  else .error (unexpected what ts)

/-! ### Positions and words -/

/-- Reads a whole number as a position; `what` names it where there is none. -/
def position (what : Expectation) (ts : List Placed) : Reading Int ts.length :=
  match ts with
  | [] => .error (unexpected what [])
  | p :: rest =>
    match p.token with
    | .number n =>
      match n.position? with
      | some i => .ok (.single i p rest)
      | none => .error (unexpected what (p :: rest))
    | _ => .error (unexpected what (p :: rest))

/-- The next token is the keyword. -/
def atKeyword (kw : Keyword) (ts : List Placed) : Bool :=
  nextToken? ts == some (.keyword kw)

/-- Reads a keyword; `what` names it where there is none. -/
def keyword (kw : Keyword) (what : Expectation) (ts : List Placed) : Reading Unit ts.length :=
  match ts with
  | [] => .error (unexpected what [])
  | p :: rest =>
    if p.token = .keyword kw then .ok (.single () p rest)
    else .error (unexpected what (p :: rest))

end Read

end MetadataRules
