/-
MetadataRules/Rule/Action.lean

Reading actions.

An action is one verb with a list of fields, or `FOR` with one operation on a
collection.  Which verbs need a filter and which refuse one is settled here,
so that the writer of a rule hears of it before anything runs.
-/
import MetadataRules.Rule.Condition

namespace MetadataRules

namespace Read

/-! ### Actions on fields -/

/-- Reads a path that names a field, and not the whole document. -/
def field (what : Expectation) (verb : FieldVerb) (ts : List Placed) : Reading Path ts.length :=
  match path what ts with
  | .error e => .error e
  | .ok p => if p.value.isCurrent then .error ⟨.wholeDocument p.value verb, ts⟩ else .ok p

/-- Reads the value given to a path, behind an optional equals sign. -/
def assigned (p : Path) (ts : List Placed) : Reading Literal ts.length :=
  match ts with
  | [] => literalFor (.assignedValue p) []
  | t :: rest =>
    if t.token = .eq then (literalFor (.assignedValue p) rest).behind
    else literalFor (.assignedValue p) (t :: rest)

/-- Reads the amount of a step, which may be left out at the end of an item. -/
def amount (p : Path) (verb : FieldVerb) (ts : List Placed) :
    Reading (Option Number) (ts.length + 1) :=
  match ts with
  | [] => .ok (.empty none [])
  | t :: rest =>
    match t.token with
    | .number n => .ok (Taken.single (some n) t rest).behind
    | .comma | .keyword .where_ => .ok (.empty none (t :: rest))
    | _ => .error (unexpected (.amount p verb) (t :: rest))

/-- Reads what a verb does to the field at a path. -/
def fieldEdit (verb : FieldVerb) (p : Path) (ts : List Placed) :
    Reading Operation (ts.length + 1) :=
  match verb with
  | .set => ((assigned p ts).map (.set p)).behind
  | .delete => .ok (.empty (.delete p) ts)
  | .rename =>
    match keyword .to_ (.renameTo p) ts with
    | .error e => .error e
    | .ok k =>
      (Attempt.after k ((field (.renameTarget p) .rename k.rest).map (.rename p)).behind).behind
  | .increment => (amount p .increment ts).map (.increment p)
  | .decrement => (amount p .decrement ts).map (.decrement p)

/-- The complaint where a second verb stands in place of a field. -/
def secondVerb? (verb : FieldVerb) (ts : List Placed) : Option ParseFault :=
  match nextToken? ts with
  | some (.keyword kw) =>
    if (FieldVerb.ofKeyword? kw).isSome || kw.isCollectionVerb then
      some ⟨.secondVerb kw verb, ts⟩
    else none
  | _ => none

/-- Reads one field and what is done to it. -/
def fieldItem (verb : FieldVerb) (ts : List Placed) : Reading Operation ts.length :=
  match secondVerb? verb ts with
  | some fault => .error fault
  | none =>
    match field (.fieldOf verb) verb ts with
    | .error e => .error e
    | .ok p => .after p (fieldEdit verb p.value p.rest)

/-- Reads the fields of a verb, with commas between them. -/
def fieldItems (verb : FieldVerb) (ts : List Placed) : Reading (List Operation) ts.length :=
  match fieldItem verb ts with
  | .error e => .error e
  | .ok item =>
    match hrest : item.rest with
    | [] => .ok (item.map ([·]))
    | t :: behind =>
      have hlt := item.separated hrest
      if t.token = .comma then .within hlt ((fieldItems verb behind).map (item.value :: ·)).behind
      else .ok (item.map ([·]))
termination_by ts.length
decreasing_by omega

/-- The complaint about tokens behind a complete action. -/
def endOfAction (ts : List Placed) : Except ParseFault Unit :=
  match ts with
  | [] => .ok ()
  | t :: rest => .error ⟨.afterAction (some t.token), t :: rest⟩

/-- Reads the fields of a verb and nothing else. -/
def fieldAction (verb : FieldVerb) (ts : List Placed) : Except ParseFault (List Operation) :=
  match fieldItems verb ts with
  | .error e => .error e
  | .ok items =>
    if atKeyword .where_ items.rest then .error ⟨.filterOnFields, items.rest⟩
    else match endOfAction items.rest with
      | .error e => .error e
      | .ok () => .ok items.value

/-! ### Verbs of collections -/

/-- A filter and the place of its `WHERE`. -/
structure Filter where
  test : Condition
  place : List Placed

/-- The complaint about a filter in front of a verb that takes none. -/
def refuseFilter (filter : Option Filter) (kw : Keyword) (sample : String) :
    Except ParseFault Unit :=
  match filter with
  | some f => .error ⟨.filterNotTaken kw sample, f.place⟩
  | none => .ok ()

/-- Reads the assignments of `SET` on elements, with commas between them. -/
def assignments (target : Path) (ts : List Placed) : Reading (List (Path × Literal)) ts.length :=
  match path (.assignedField target) ts with
  | .error e => .error e
  | .ok p =>
    match assigned p.value p.rest with
    | .error e => .error e
    | .ok value =>
      match hrest : value.rest with
      | [] => .after p (.ok (value.map fun l => [(p.value, l)]).behind)
      | t :: behind =>
        have hlt := value.separated hrest
        if t.token = .comma then
          .after p (.behind (.within hlt
            ((assignments target behind).map ((p.value, value.value) :: ·)).behind))
        else .after p (.ok (value.map fun l => [(p.value, l)]).behind)
termination_by ts.length
decreasing_by
  have := p.fewer
  omega

/-- Reads the value and the position of `INSERT`. -/
def insertion (target : Path) (ts : List Placed) : Reading Verb ts.length :=
  match literalFor (.insertedValue target) ts with
  | .error e => .error e
  | .ok value =>
    match keyword .at_ (.insertPosition target) value.rest with
    | .error e => .error e
    | .ok k =>
      .after value (.behind (.after k
        ((position (.insertIndex target) k.rest).map (.insert value.value)).behind))

/-- Reads the direction of a sort, which may be left out. -/
def direction (ts : List Placed) : Parsed SortDirection (ts.length + 1) :=
  match ts with
  | [] => .empty .ascending []
  | t :: rest =>
    if t.token = .keyword .desc then (Taken.single .descending t rest).behind
    else if t.token = .keyword .asc then (Taken.single .ascending t rest).behind
    else .empty .ascending (t :: rest)

/-- Reads the field and the direction of a sort, which may both be left out. -/
def sorting (target : Path) (ts : List Placed) : Reading Verb (ts.length + 1) :=
  match ts with
  | [] => .ok ((direction []).map (.sort none))
  | t :: rest =>
    if t.token = .keyword .by_ then
      match path (.sortField target) rest with
      | .error e => .error e
      | .ok p =>
        (Attempt.after p (.ok ((direction p.rest).map (.sort (some p.value))))).behind.behind
    else .ok ((direction (t :: rest)).map (.sort none))

/-- Reads the condition behind `AFTER` or `BEFORE`. -/
def anchor (target : Path) (placement : Keyword) (ts : List Placed) :
    Reading Condition ts.length :=
  match ts with
  | [] => .error (unexpected (.anchor target placement) [])
  | t :: rest => disjunction (t :: rest)

/-- Reads where matching elements are moved to. -/
def destination (target : Path) (ts : List Placed) : Reading Destination ts.length :=
  match ts with
  | [] => .error (unexpected .destination [])
  | t :: rest =>
    match t.token with
    | .keyword .start => .ok (.single .start t rest)
    | .keyword .end_ => .ok (.single .finish t rest)
    | .keyword .after => ((anchor target .after rest).map .after).behind
    | .keyword .before => ((anchor target .before rest).map .before).behind
    | _ => .error (unexpected .destination (t :: rest))

/-- Reads the two positions behind `MOVE FROM`. -/
def moveByIndex (target : Path) (ts : List Placed) : Reading Verb ts.length :=
  match position (.moveSource target) ts with
  | .error e => .error e
  | .ok source =>
    match keyword .to_ (.moveTo target source.value) source.rest with
    | .error e => .error e
    | .ok k =>
      .after source (.behind (.after k
        ((position (.moveTarget target source.value) k.rest).map
          (.moveIndex source.value)).behind))

/-- Reads what follows `MOVE`: two positions, or a destination for the elements of a filter. -/
def moving (target : Path) (filter : Option Filter) (ts : List Placed) :
    Reading Verb ts.length :=
  match ts with
  | [] => .error (unexpected (.moveFrom target) [])
  | t :: rest =>
    match t.token with
    | .keyword .from_ =>
      match refuseFilter filter .move
        (s!"FOR {target.text} MOVE FROM 0 TO 2; to move matching elements write " ++
          s!"FOR {target.text} WHERE condition MOVE TO START") with
      | .error e => .error e
      | .ok () => (moveByIndex target rest).behind
    | .keyword .to_ =>
      match destination target rest with
      | .error e => .error e
      | .ok d =>
        if filter.isNone then .error ⟨.moveWithoutFilter target, t :: rest⟩
        else .ok (d.map .moveMatching).behind
    | _ => .error (unexpected (.moveFrom target) (t :: rest))

/-- Reads a value behind a verb that takes no filter. -/
def valueVerb (filter : Option Filter) (kw : Keyword) (sample : String)
    (what : Expectation) (verb : Literal → Verb) (ts : List Placed) : Reading Verb ts.length :=
  match refuseFilter filter kw sample with
  | .error e => .error e
  | .ok () => (literalFor what ts).map verb

/-- Reads what follows the verb of a collection; `verbPlace` is where the verb stands. -/
def collectionVerb (target : Path) (filter : Option Filter) (kw : Keyword)
    (verbPlace ts : List Placed) : Reading Verb (ts.length + 1) :=
  match kw with
  | .set =>
    match filter with
    | none => .error ⟨.setWithoutFilter target, verbPlace⟩
    | some _ => ((assignments target ts).map .update).behind
  | .append =>
    (valueVerb filter .append s!"FOR {target.text} APPEND \"value\""
      (.addedValue target .append) .append ts).behind
  | .prepend =>
    (valueVerb filter .prepend s!"FOR {target.text} PREPEND \"value\""
      (.addedValue target .prepend) .prepend ts).behind
  | .insert =>
    match refuseFilter filter .insert s!"FOR {target.text} INSERT \"value\" AT 0" with
    | .error e => .error e
    | .ok () => (insertion target ts).behind
  | .removeAll =>
    (valueVerb filter .removeAll
      s!"FOR {target.text} REMOVE_ALL \"value\", or FOR {target.text} WHERE condition REMOVE"
      (.removedValues target) .removeAll ts).behind
  | .remove =>
    match filter with
    | some _ =>
      if (nextToken? ts).any startsLiteral then .error ⟨.removeWithValue target, ts⟩
      else .ok (.empty .removeMatching ts)
    | none => ((literalFor (.removedValue target) ts).map .removeFirst).behind
  | .sort =>
    match refuseFilter filter .sort s!"FOR {target.text} SORT BY field DESC" with
    | .error e => .error e
    | .ok () => sorting target ts
  | .move => (moving target filter ts).behind
  | .deduplicate =>
    match refuseFilter filter .deduplicate s!"FOR {target.text} DEDUPLICATE" with
    | .error e => .error e
    | .ok () => .ok (.empty .deduplicate ts)
  | .merge =>
    (valueVerb filter .merge s!"FOR {target.text} MERGE \x7breviewed: true\x7d"
      (.mergedObject target .merge) (.merge · true) ts).behind
  | .mergeOverwrite =>
    (valueVerb filter .mergeOverwrite
      s!"FOR {target.text} MERGE_OVERWRITE \x7breviewed: true\x7d"
      (.mergedObject target .mergeOverwrite) (.merge · false) ts).behind
  | _ => .error (unexpected (.collectionVerb target) verbPlace)

/-! ### Actions on collections -/

/-- A condition cannot begin here: nothing is left, or a verb comes next. -/
def lacksFilter (ts : List Placed) : Bool :=
  match nextToken? ts with
  | none => true
  | some (.keyword kw) => kw.isCollectionVerb || kw = .set
  | some _ => false

/-- Reads the filter of a collection, if there is one. -/
def filter? (target : Path) (ts : List Placed) : Reading (Option Filter) (ts.length + 1) :=
  match ts with
  | [] => .ok (.empty none [])
  | t :: rest =>
    if t.token = .keyword .where_ then
      if lacksFilter rest then .error (unexpected (.filter target) rest)
      else ((disjunction rest).map fun c => some ⟨c, t :: rest⟩).behind.behind
    else .ok (.empty none (t :: rest))

/-- The verb of a collection, or the complaint about what stands in its place. -/
def verbKeyword (target : Path) (ts : List Placed) : Except ParseFault Keyword :=
  match nextToken? ts with
  | some (.keyword kw) =>
    match FieldVerb.ofKeyword? kw with
    | some .set => .ok kw
    | some verb => .error ⟨.forOnFields verb kw, ts⟩
    | none =>
      if kw.isCollectionVerb then .ok kw else .error (unexpected (.collectionVerb target) ts)
  | _ => .error (unexpected (.anyCollectionVerb target) ts)

/-- Reads the operation behind `FOR`, and nothing else. -/
def collectionAction (ts : List Placed) : Except ParseFault (List Operation) :=
  match path .collectionPath ts with
  | .error e => .error e
  | .ok target =>
    match filter? target.value target.rest with
    | .error e => .error e
    | .ok filter =>
      match verbKeyword target.value filter.rest with
      | .error e => .error e
      | .ok kw =>
        match collectionVerb target.value filter.value kw filter.rest filter.rest.tail with
        | .error e => .error e
        | .ok verb =>
          if atKeyword .where_ verb.rest then
            .error ⟨.lateFilter target.value verb.value, verb.rest⟩
          else match endOfAction verb.rest with
            | .error e => .error e
            | .ok () =>
              .ok [.collection target.value (filter.value.map Filter.test) verb.value]

/-! ### Whole actions -/

/-- Reads an action that all tokens belong to. -/
def wholeAction (ts : List Placed) : Except ParseFault Action :=
  match ts with
  | [] => .error ⟨.noAction, []⟩
  | t :: rest =>
    match t.token with
    | .keyword .for_ => (collectionAction rest).map Action.mk
    | .keyword kw =>
      match FieldVerb.ofKeyword? kw with
      | some verb => (fieldAction verb rest).map Action.mk
      | none =>
        if kw = .where_ then .error ⟨.leadingWhere, t :: rest⟩
        else if kw.isCollectionVerb then .error ⟨.missingFor kw, t :: rest⟩
        else .error (unexpected .actionVerb (t :: rest))
    | _ => .error (unexpected .actionVerb (t :: rest))

end Read

/-- The action that a text is. -/
def Action.ofText (text : String) : Except RuleError Action :=
  readText Read.wholeAction text

/-- Whether a text reads as an action can be tested. -/
instance (text : String) (action : Action) : Decidable (Action.ofText text = .ok action) :=
  match Action.ofText text with
  | .ok read => decidable_of_iff (read = action) (by rw [Except.ok.injEq])
  | .error _ => isFalse nofun

end MetadataRules
