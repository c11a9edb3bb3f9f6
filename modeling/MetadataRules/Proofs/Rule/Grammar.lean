/-
MetadataRules/Proofs/Rule/Grammar.lean

The grammar of rule text.

A relation for each kind of phrase says which lists of tokens are such a phrase
and what the phrase stands for.  No relation knows of a reader: `PathOf ts p`
says that the tokens `ts`, all of them, are the path `p`.

The body of `ANY` goes on as far as a condition can.  So the relations on
conditions carry a mark, true of a phrase that ends in an `ANY` outside
parentheses, and `AND` and `OR` follow only a phrase without it.

A verb of a collection either takes no filter (`PlainVerbOf`) or needs one
(`FilteredVerbOf`); `REMOVE` and `MOVE` are on both lists with different phrases
behind them.
-/
import MetadataRules.Proofs.Fields
import MetadataRules.Rule.Complaint

namespace MetadataRules

namespace Grammar

/-! ### Paths -/

/-- A token that begins a path. -/
inductive FirstOf : Token → Segment → Prop
  | name (name : String) : FirstOf (.identifier name) (.key name)
  | quoted (s : String) : FirstOf (.string s) (.key s)
  | current : FirstOf .at_ .current

/-- A token behind a dot: every word is a key, and every whole number a position. -/
inductive NextOf : Token → Segment → Prop
  | name (name : String) : NextOf (.identifier name) (.key name)
  | quoted (s : String) : NextOf (.string s) (.key s)
  | keyword (kw : Keyword) : NextOf (.keyword kw) (.key kw.name)
  | yes : NextOf (.boolean true) (.key "true")
  | no : NextOf (.boolean false) (.key "false")
  | null : NextOf .null (.key "null")
  | position {n : Number} {i : Int} (h : n.position? = some i) : NextOf (.number n) (.index i)

/-- Any number of segments, each behind a dot. -/
inductive StepsOf : List Token → List Segment → Prop
  | nil : StepsOf [] []
  | cons {t : Token} {s : Segment} {ts : List Token} {ss : List Segment} (h : NextOf t s)
      (hrest : StepsOf ts ss) : StepsOf (.dot :: t :: ts) (s :: ss)

inductive PathOf : List Token → Path → Prop
  | intro {t : Token} {s : Segment} {ts : List Token} {ss : List Segment} (h : FirstOf t s)
      (hrest : StepsOf ts ss) : PathOf (t :: ts) ⟨s :: ss⟩

/-! ### Literals -/

/-- A key in front of a colon. -/
inductive KeyOf : Token → String → Prop
  | name (name : String) : KeyOf (.identifier name) name
  | quoted (s : String) : KeyOf (.string s) s
  | keyword (kw : Keyword) : KeyOf (.keyword kw) kw.name

mutual

inductive LiteralOf : List Token → Literal → Prop
  | number (n : Number) : LiteralOf [.number n] (.number n)
  | string (s : String) : LiteralOf [.string s] (.string s)
  | boolean (b : Bool) : LiteralOf [.boolean b] (.boolean b)
  | null : LiteralOf [.null] .null
  | now : LiteralOf [.keyword .now] .now
  | today : LiteralOf [.keyword .today] .today
  | list {ts : List Token} {items : List Literal} (h : ItemsOf ts items) :
      LiteralOf (.leftBracket :: ts ++ [.rightBracket]) (.array items)
  | object {ts : List Token} {pairs : List (String × Literal)} {fields : Fields Literal}
      (h : PairsOf ts pairs) (hfields : fields.Collects pairs) :
      LiteralOf (.leftBrace :: ts ++ [.rightBrace]) (.object fields)

/-- Items with commas between them, and maybe one behind the last. -/
inductive ItemsOf : List Token → List Literal → Prop
  | nil : ItemsOf [] []
  | last {ts : List Token} {l : Literal} (h : LiteralOf ts l) : ItemsOf ts [l]
  | cons {ts us : List Token} {l : Literal} {items : List Literal} (h : LiteralOf ts l)
      (hrest : ItemsOf us items) : ItemsOf (ts ++ .comma :: us) (l :: items)

/-- Keys with their values, with commas between them, and maybe one behind the last. -/
inductive PairsOf : List Token → List (String × Literal) → Prop
  | nil : PairsOf [] []
  | last {t : Token} {key : String} {ts : List Token} {l : Literal} (hkey : KeyOf t key)
      (h : LiteralOf ts l) : PairsOf (t :: .colon :: ts) [(key, l)]
  | cons {t : Token} {key : String} {ts us : List Token} {l : Literal}
      {pairs : List (String × Literal)} (hkey : KeyOf t key) (h : LiteralOf ts l)
      (hrest : PairsOf us pairs) : PairsOf (t :: .colon :: ts ++ .comma :: us) ((key, l) :: pairs)

end

/-! ### Conditions -/

/-- A comparison sign. -/
inductive SignOf : Token → Comparison → Prop
  | equal : SignOf .eq .equal
  | notEqual : SignOf .notEq .notEqual
  | less : SignOf .lt .less
  | lessEq : SignOf .ltEq .lessEq
  | greater : SignOf .gt .greater
  | greaterEq : SignOf .gtEq .greaterEq

/-- `CONTAINS` or `IN` with what follows it, behind a path. -/
inductive MembershipOf (p : Path) : List Token → Condition → Prop
  | contains {ts : List Token} {l : Literal} (h : LiteralOf ts l) :
      MembershipOf p (.keyword .contains :: ts) (.contains p l)
  | oneOfList {ts : List Token} {items : List Literal} (h : LiteralOf ts (.array items)) :
      MembershipOf p (.keyword .in_ :: ts) (.oneOf p items)
  | oneOfOne {ts : List Token} {l : Literal} (h : LiteralOf ts l)
      (hl : ∀ items, l ≠ .array items) : MembershipOf p (.keyword .in_ :: ts) (.oneOf p [l])

/-- What may follow a path in a test of that path. -/
inductive PredicateOf (p : Path) : List Token → Condition → Prop
  | compare {t : Token} {op : Comparison} {ts : List Token} {l : Literal} (hop : SignOf t op)
      (h : LiteralOf ts l) : PredicateOf p (t :: ts) (.compare p op l)
  | exists : PredicateOf p [.keyword .exists_] (.present p false)
  | notExists : PredicateOf p [.keyword .not, .keyword .exists_] (.present p true)
  | member {ts : List Token} {c : Condition} (h : MembershipOf p ts c) : PredicateOf p ts c
  | notMember {ts : List Token} {c : Condition} (h : MembershipOf p ts c) :
      PredicateOf p (.keyword .not :: ts) (.not c)
  | truthy : PredicateOf p [] (.truthy p)

mutual

/-- Conjunctions with `OR` between them, from the left. -/
inductive DisjunctionOf : Bool → List Token → Condition → Prop
  | single {mark : Bool} {ts : List Token} {c : Condition} (h : ConjunctionOf mark ts c) :
      DisjunctionOf mark ts c
  | or {mark : Bool} {ts us : List Token} {c d : Condition} (hleft : DisjunctionOf false ts c)
      (hright : ConjunctionOf mark us d) :
      DisjunctionOf mark (ts ++ .keyword .or :: us) (.or c d)

/-- Tests with `AND` between them, from the left. -/
inductive ConjunctionOf : Bool → List Token → Condition → Prop
  | single {mark : Bool} {ts : List Token} {c : Condition} (h : UnaryOf mark ts c) :
      ConjunctionOf mark ts c
  | and {mark : Bool} {ts us : List Token} {c d : Condition} (hleft : ConjunctionOf false ts c)
      (hright : UnaryOf mark us d) :
      ConjunctionOf mark (ts ++ .keyword .and :: us) (.and c d)

/-- A test, which `NOT` may negate.  `NOT HAS` is one word for an absent field. -/
inductive UnaryOf : Bool → List Token → Condition → Prop
  | notHas {ts : List Token} {p : Path} (h : PathOf ts p) :
      UnaryOf false (.keyword .not :: .keyword .has :: ts) (.present p true)
  | not {mark : Bool} {ts : List Token} {c : Condition} (hts : ts.head? ≠ some (.keyword .has))
      (h : UnaryOf mark ts c) : UnaryOf mark (.keyword .not :: ts) (.not c)
  | atom {mark : Bool} {ts : List Token} {c : Condition} (h : AtomOf mark ts c) :
      UnaryOf mark ts c

/-- A test that stands by itself. -/
inductive AtomOf : Bool → List Token → Condition → Prop
  | paren {mark : Bool} {ts : List Token} {c : Condition} (h : DisjunctionOf mark ts c) :
      AtomOf false (.leftParen :: ts ++ [.rightParen]) c
  | has {ts : List Token} {p : Path} (h : PathOf ts p) :
      AtomOf false (.keyword .has :: ts) (.present p false)
  | any {mark : Bool} {ts us : List Token} {p : Path} {c : Condition} (hp : PathOf ts p)
      (h : DisjunctionOf mark us c) :
      AtomOf true (.keyword .any :: ts ++ .keyword .where_ :: us) (.anyElement p c)
  | test {ts us : List Token} {p : Path} {c : Condition} (hp : PathOf ts p)
      (h : PredicateOf p us c) : AtomOf false (ts ++ us) c

end

/-- The tokens, all of them, are a condition. -/
def ConditionOf (ts : List Token) (c : Condition) : Prop := ∃ mark, DisjunctionOf mark ts c

/-! ### Actions on fields -/

/-- One or more phrases with a comma between each two. -/
inductive SeparatedOf {α : Type} (phrase : List Token → α → Prop) : List Token → List α → Prop
  | single {ts : List Token} {a : α} (h : phrase ts a) : SeparatedOf phrase ts [a]
  | cons {ts us : List Token} {a : α} {rest : List α} (h : phrase ts a)
      (hrest : SeparatedOf phrase us rest) : SeparatedOf phrase (ts ++ .comma :: us) (a :: rest)

/-- A path that names a field: `@` alone names the whole document. -/
structure FieldOf (ts : List Token) (p : Path) : Prop where
  path : PathOf ts p
  ne_current : ts ≠ [.at_]

/-- A literal, behind an equals sign or not. -/
inductive AssignedOf : List Token → Literal → Prop
  | plain {ts : List Token} {l : Literal} (h : LiteralOf ts l) : AssignedOf ts l
  | equal {ts : List Token} {l : Literal} (h : LiteralOf ts l) : AssignedOf (.eq :: ts) l

/-- The amount of a step, which may be left out. -/
inductive AmountOf : List Token → Option Number → Prop
  | none : AmountOf [] none
  | number (n : Number) : AmountOf [.number n] (some n)

/-- A field and what a verb does to it. -/
inductive FieldItemOf : FieldVerb → List Token → Operation → Prop
  | set {ts us : List Token} {p : Path} {l : Literal} (hp : FieldOf ts p) (h : AssignedOf us l) :
      FieldItemOf .set (ts ++ us) (.set p l)
  | delete {ts : List Token} {p : Path} (hp : FieldOf ts p) : FieldItemOf .delete ts (.delete p)
  | rename {ts us : List Token} {p q : Path} (hp : FieldOf ts p) (hq : FieldOf us q) :
      FieldItemOf .rename (ts ++ .keyword .to_ :: us) (.rename p q)
  | increment {ts us : List Token} {p : Path} {n : Option Number} (hp : FieldOf ts p)
      (h : AmountOf us n) : FieldItemOf .increment (ts ++ us) (.increment p n)
  | decrement {ts us : List Token} {p : Path} {n : Option Number} (hp : FieldOf ts p)
      (h : AmountOf us n) : FieldItemOf .decrement (ts ++ us) (.decrement p n)

/-- The word for a verb on fields. -/
inductive FieldVerbOf : Keyword → FieldVerb → Prop
  | set : FieldVerbOf .set .set
  | delete : FieldVerbOf .delete .delete
  | rename : FieldVerbOf .rename .rename
  | increment : FieldVerbOf .increment .increment
  | decrement : FieldVerbOf .decrement .decrement

/-! ### Actions on collections -/

/-- A whole number. -/
inductive PositionOf : Token → Int → Prop
  | intro {n : Number} {i : Int} (h : n.position? = some i) : PositionOf (.number n) i

/-- The direction of a sort, which may be left out. -/
inductive DirectionOf : List Token → SortDirection → Prop
  | none : DirectionOf [] .ascending
  | asc : DirectionOf [.keyword .asc] .ascending
  | desc : DirectionOf [.keyword .desc] .descending

/-- A verb that takes no filter. -/
inductive PlainVerbOf : List Token → Verb → Prop
  | append {ts : List Token} {l : Literal} (h : LiteralOf ts l) :
      PlainVerbOf (.keyword .append :: ts) (.append l)
  | prepend {ts : List Token} {l : Literal} (h : LiteralOf ts l) :
      PlainVerbOf (.keyword .prepend :: ts) (.prepend l)
  | insert {ts : List Token} {t : Token} {l : Literal} {i : Int} (h : LiteralOf ts l)
      (hi : PositionOf t i) :
      PlainVerbOf (.keyword .insert :: ts ++ [.keyword .at_, t]) (.insert l i)
  | removeAll {ts : List Token} {l : Literal} (h : LiteralOf ts l) :
      PlainVerbOf (.keyword .removeAll :: ts) (.removeAll l)
  | removeFirst {ts : List Token} {l : Literal} (h : LiteralOf ts l) :
      PlainVerbOf (.keyword .remove :: ts) (.removeFirst l)
  | sort {ts : List Token} {d : SortDirection} (h : DirectionOf ts d) :
      PlainVerbOf (.keyword .sort :: ts) (.sort none d)
  | sortBy {ts us : List Token} {p : Path} {d : SortDirection} (hp : PathOf ts p)
      (h : DirectionOf us d) :
      PlainVerbOf (.keyword .sort :: .keyword .by_ :: ts ++ us) (.sort (some p) d)
  | moveIndex {t u : Token} {i j : Int} (hi : PositionOf t i) (hj : PositionOf u j) :
      PlainVerbOf [.keyword .move, .keyword .from_, t, .keyword .to_, u] (.moveIndex i j)
  | deduplicate : PlainVerbOf [.keyword .deduplicate] .deduplicate
  | merge {ts : List Token} {l : Literal} (h : LiteralOf ts l) :
      PlainVerbOf (.keyword .merge :: ts) (.merge l true)
  | mergeOverwrite {ts : List Token} {l : Literal} (h : LiteralOf ts l) :
      PlainVerbOf (.keyword .mergeOverwrite :: ts) (.merge l false)

/-- Where matching elements are moved to. -/
inductive DestinationOf : List Token → Destination → Prop
  | start : DestinationOf [.keyword .start] .start
  | finish : DestinationOf [.keyword .end_] .finish
  | after {ts : List Token} {c : Condition} (h : ConditionOf ts c) :
      DestinationOf (.keyword .after :: ts) (.after c)
  | before {ts : List Token} {c : Condition} (h : ConditionOf ts c) :
      DestinationOf (.keyword .before :: ts) (.before c)

/-- A field of an element and the value that it is given. -/
inductive AssignmentOf : List Token → Path × Literal → Prop
  | intro {ts us : List Token} {p : Path} {l : Literal} (hp : PathOf ts p) (h : AssignedOf us l) :
      AssignmentOf (ts ++ us) (p, l)

/-- A verb that needs a filter. -/
inductive FilteredVerbOf : List Token → Verb → Prop
  | remove : FilteredVerbOf [.keyword .remove] .removeMatching
  | move {ts : List Token} {d : Destination} (h : DestinationOf ts d) :
      FilteredVerbOf (.keyword .move :: .keyword .to_ :: ts) (.moveMatching d)
  | set {ts : List Token} {assignments : List (Path × Literal)}
      (h : SeparatedOf AssignmentOf ts assignments) :
      FilteredVerbOf (.keyword .set :: ts) (.update assignments)

/-- The tokens, all of them, are an action. -/
inductive ActionOf : List Token → Action → Prop
  | fields {kw : Keyword} {verb : FieldVerb} {ts : List Token} {ops : List Operation}
      (hverb : FieldVerbOf kw verb) (h : SeparatedOf (FieldItemOf verb) ts ops) :
      ActionOf (.keyword kw :: ts) ⟨ops⟩
  | plain {ts us : List Token} {target : Path} {verb : Verb} (hp : PathOf ts target)
      (h : PlainVerbOf us verb) :
      ActionOf (.keyword .for_ :: ts ++ us) ⟨[.collection target none verb]⟩
  | filtered {ts us vs : List Token} {target : Path} {filter : Condition} {verb : Verb}
      (hp : PathOf ts target) (hfilter : ConditionOf us filter) (h : FilteredVerbOf vs verb) :
      ActionOf (.keyword .for_ :: ts ++ .keyword .where_ :: us ++ vs)
        ⟨[.collection target (some filter) verb]⟩

end Grammar

end MetadataRules
