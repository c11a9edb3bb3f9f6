/-
MetadataRules/Rule/Condition.lean

Reading conditions.

`NOT` binds tightest, then `AND`, then `OR`; chains of one word associate to
the left.  The test behind `ANY path WHERE` goes on as far as a condition can,
so what follows it must be kept apart with parentheses.
-/
import MetadataRules.Rule.Phrase

namespace MetadataRules

namespace Read

/-! ### Tests of one path -/

/-- The comparison that a token is. -/
def comparison? : Token → Option Comparison
  | .eq => some .equal
  | .notEq => some .notEqual
  | .lt => some .less
  | .ltEq => some .lessEq
  | .gt => some .greater
  | .gtEq => some .greaterEq
  | _ => none

/-- Reads `CONTAINS` or `IN` and what follows it; `none` where neither comes next. -/
def membership? (p : Path) (ts : List Placed) : Option (Reading Condition ts.length) :=
  match ts with
  | [] => none
  | t :: rest =>
    match t.token with
    | .keyword .contains =>
      some (((literalFor (.containedValue p) rest).map (.contains p)).behind)
    | .keyword .in_ =>
      some (((literalFor (.valueList p) rest).map fun l =>
        .oneOf p l.entries).behind)
    | _ => none

/-- Reads what follows a path in a test; nothing has to. -/
def predicate (p : Path) (ts : List Placed) : Reading Condition (ts.length + 1) :=
  match membership? p ts with
  | some reading => reading.behind
  | none =>
    match ts with
    | [] => .ok (.empty (.truthy p) [])
    | t :: rest =>
      match comparison? t.token with
      | some op =>
        ((literalFor (.comparedValue p op) rest).map (.compare p op)).behind.behind
      | none =>
        match t.token with
        | .keyword .exists_ => .ok (Taken.single (.present p false) t rest).behind
        | .keyword .not =>
          match membership? p rest with
          | some reading => (reading.map Condition.not).behind.behind
          | none =>
            match rest with
            | u :: behind =>
              if u.token = .keyword .exists_ then
                .ok (Taken.single (.present p true) u behind).behind.behind
              else .error ⟨.danglingNot p (some u.token), t :: u :: behind⟩
            | [] => .error ⟨.danglingNot p none, [t]⟩
        | _ => .ok (.empty (.truthy p) (t :: rest))

/-- Reads a path and the test that it begins. -/
def pathTest (ts : List Placed) : Reading Condition ts.length :=
  match path .fieldPath ts with
  | .error e => .error e
  | .ok p => .after p (predicate p.value p.rest)

/-! ### Conditions -/

/-- Reads `HAS` behind the keyword: a path, and whether it is to be absent. -/
def presence (what : Expectation) (negated : Bool) (ts : List Placed) :
    Reading Condition ts.length :=
  (path what ts).map fun p => .present p negated

mutual

/-- Reads a condition: tests joined by `AND` and `OR`. -/
def disjunction (ts : List Placed) : Reading Condition ts.length :=
  match conjunction ts with
  | .error e => .error e
  | .ok left => .after left (orRest left.value left.rest)
termination_by 5 * ts.length + 4
decreasing_by
  · omega
  · have := left.fewer
    omega

/-- Reads on behind a condition, where `OR` joins it to another one. -/
def orRest (left : Condition) (ts : List Placed) : Reading Condition (ts.length + 1) :=
  match ts with
  | [] => .ok (.empty left [])
  | t :: rest =>
    if t.token = .keyword .or then
      match conjunction rest with
      | .error e => .error e
      | .ok right =>
        (Attempt.after right (orRest (.or left right.value) right.rest)).behind.behind
    else .ok (.empty left (t :: rest))
termination_by 5 * ts.length + 4
decreasing_by
  · simp only [List.length_cons]
    omega
  · have := right.fewer
    simp only [List.length_cons]
    omega

/-- Reads tests joined by `AND`. -/
def conjunction (ts : List Placed) : Reading Condition ts.length :=
  match unary ts with
  | .error e => .error e
  | .ok left => .after left (andRest left.value left.rest)
termination_by 5 * ts.length + 3
decreasing_by
  · omega
  · have := left.fewer
    omega

/-- Reads on behind a test, where `AND` joins it to another one. -/
def andRest (left : Condition) (ts : List Placed) : Reading Condition (ts.length + 1) :=
  match ts with
  | [] => .ok (.empty left [])
  | t :: rest =>
    if t.token = .keyword .and then
      match unary rest with
      | .error e => .error e
      | .ok right =>
        (Attempt.after right (andRest (.and left right.value) right.rest)).behind.behind
    else .ok (.empty left (t :: rest))
termination_by 5 * ts.length + 3
decreasing_by
  · simp only [List.length_cons]
    omega
  · have := right.fewer
    simp only [List.length_cons]
    omega

/-- Reads a test, which `NOT` may negate. -/
def unary (ts : List Placed) : Reading Condition ts.length :=
  match ts with
  | [] => atom []
  | t :: rest =>
    if t.token = .keyword .not then
      match rest with
      | [] => ((unary []).map .not).behind
      | u :: behind =>
        if u.token = .keyword .has then
          (presence .pathAfterNotHas true behind).behind.behind
        else ((unary (u :: behind)).map .not).behind
    else atom (t :: rest)
termination_by 5 * ts.length + 2

/-- Reads a test that stands by itself. -/
def atom (ts : List Placed) : Reading Condition ts.length :=
  match ts with
  | [] => .error (unexpected .condition [])
  | t :: rest =>
    match t.token with
    | .leftParen =>
      match disjunction rest with
      | .error e => .error e
      | .ok inner =>
        match hrest : inner.rest with
        | [] => .error (unexpected .closingParen [])
        | u :: behind =>
          if u.token = .rightParen then
            (Attempt.within (inner.separated hrest) (.ok (.empty inner.value behind))).behind
          else .error (unexpected .closingParen (u :: behind))
    | .keyword .has => (presence .pathAfterHas false rest).behind
    | .keyword .any =>
      match path .pathAfterAny rest with
      | .error e => .error e
      | .ok p =>
        match keyword .where_ (.whereAfterAny p.value) p.rest with
        | .error e => .error e
        | .ok w =>
          (Attempt.after p (.behind (.after w
            ((disjunction w.rest).map (.anyElement p.value)).behind))).behind
    | .identifier _ | .string _ | .at_ => pathTest (t :: rest)
    | _ => .error (unexpected .conditionStart (t :: rest))
termination_by 5 * ts.length + 1
decreasing_by
  · simp only [List.length_cons]
    omega
  · have := p.fewer
    have := w.fewer
    simp only [List.length_cons]
    omega

end

/-- Reads a condition that all tokens belong to. -/
def wholeCondition (ts : List Placed) : Except ParseFault Condition :=
  match ts with
  | [] => .error ⟨.noCondition, []⟩
  | t :: rest =>
    match disjunction (t :: rest) with
    | .error e => .error e
    | .ok c =>
      match c.rest with
      | [] => .ok c.value
      | u :: behind => .error ⟨.afterCondition (some u.token), u :: behind⟩

end Read

/-- The condition that a text is. -/
def Condition.ofText (text : String) : Except RuleError Condition :=
  readText Read.wholeCondition text

/-- Whether a text reads as a condition can be tested. -/
instance (text : String) (c : Condition) : Decidable (Condition.ofText text = .ok c) :=
  match Condition.ofText text with
  | .ok read => decidable_of_iff (read = c) (by rw [Except.ok.injEq])
  | .error _ => isFalse nofun

end MetadataRules
