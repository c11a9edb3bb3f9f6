/-
MetadataRules/Proofs/Rule/Numbers.lean

The values that literals of rule text stand for.

Every number of rule text is a rounded decimal (`isDecimal_of_tokenize`), and so
is a number or an infinity.  An object of rule text has no key twice, since it is
made by writing its pairs one by one.  Both are properties that edits keep
(`Value.Stable`), and a literal of the grammar stands for a value with such a
property when the numbers among its tokens have it (`Grammar.stable_resolve`).
-/
import MetadataRules.Proofs.Number.Decimal
import MetadataRules.Proofs.Rule.WellFormed
import MetadataRules.Proofs.Value.Edits
import MetadataRules.Token.Lexer

namespace MetadataRules

namespace Lexer

/-! ### The numbers of a text -/

theorem isDecimal_of_numberText {afterDot : Bool} {cs rest : List Char} {n : Number}
    (h : numberText afterDot cs = .ok (n, rest)) : n.IsDecimal := by
  unfold numberText at h
  dsimp only at h
  split at h
  · cases h
  · split at h
    · cases h
    · split at h
      · cases h
      · obtain ⟨rfl, -⟩ := Prod.mk.inj (Except.ok.inj h)
        exact ⟨_, _, _, _, rfl⟩

theorem ofSign?_ne_number {c : Char} {n : Number} : Token.ofSign? c ≠ some (.number n) := by
  unfold Token.ofSign?
  split <;> nofun

theorem ofWord_ne_number {word : String} {n : Number} : Token.ofWord word ≠ .number n := by
  unfold Token.ofWord
  repeat' split
  all_goals nofun

theorem withEquals_ne_number {longer shorter : Token} {cs : List Char} {n : Number}
    (hlonger : longer ≠ .number n) (hshorter : shorter ≠ .number n) :
    (withEquals longer shorter cs).1 ≠ .number n := by
  unfold withEquals
  split
  · exact hlonger
  · exact hshorter

/-- A lexeme that is a number was read as one. -/
theorem isDecimal_of_lexeme {afterDot : Bool} {offset : Nat} {c : Char} {cs rest : List Char}
    {n : Number} (h : lexeme afterDot offset c cs = .ok (.number n, rest)) : n.IsDecimal := by
  unfold lexeme at h
  split at h
  · rename_i sign hsign
    obtain ⟨rfl, -⟩ := Prod.mk.inj (Except.ok.inj h)
    exact absurd hsign ofSign?_ne_number
  have hequals : ∀ longer shorter, longer ≠ .number n → shorter ≠ .number n →
      (.ok (withEquals longer shorter cs) : Except LexError _) ≠ .ok (.number n, rest) :=
    fun longer shorter hl hs heq =>
      withEquals_ne_number hl hs (congrArg Prod.fst (Except.ok.inj heq))
  split at h
  · exact absurd h (hequals _ _ nofun nofun)
  split at h
  · exact absurd h (hequals _ _ nofun nofun)
  split at h
  · exact absurd h (hequals _ _ nofun nofun)
  split at h
  · split at h <;> cases h
  split at h
  · split at h <;> cases h
  split at h
  · split at h
    · cases h
    · rename_i hnumber
      obtain ⟨heq, -⟩ := Prod.mk.inj (Except.ok.inj h)
      obtain rfl := Token.number.inj heq
      exact isDecimal_of_numberText hnumber
  split at h
  · exact absurd (Prod.mk.inj (Except.ok.inj h)).1 ofWord_ne_number
  · cases h

theorem isDecimal_of_scanFrom {offset : Nat} {afterDot : Bool} {text : List Char}
    {scan : Scan} (h : scanFrom offset afterDot text = .ok scan) {n : Number} :
    .number n ∈ scan.tokens.map Placed.token → n.IsDecimal := by
  fun_induction scanFrom offset afterDot text generalizing scan with
  | case1 =>
    obtain rfl := Except.ok.inj h
    exact fun hmem => absurd hmem List.not_mem_nil
  | case2 offset afterDot c cs hblank ih => exact ih h
  | case3 => cases h
  | case4 => cases h
  | case5 offset afterDot c cs hblank token rest hlexeme more hmore ih =>
    obtain rfl := Except.ok.inj h
    intro hmem
    rcases List.mem_cons.1 hmem with heq | hmem
    · obtain rfl : token = .number n := heq.symm
      exact isDecimal_of_lexeme hlexeme
    · exact ih hmore hmem

end Lexer

/-- Every number among the tokens of a text is what its digits stand for. -/
theorem isDecimal_of_tokenize {text : String} {scan : Scan} (h : tokenize text = .ok scan)
    {n : Number} (hn : .number n ∈ scan.tokens.map Placed.token) : n.IsDecimal :=
  Lexer.isDecimal_of_scanFrom h hn

namespace Grammar

/-! ### The values of literals -/

theorem resolvePairs_eq_map (clock : Clock) (pairs : List (String × Literal)) :
    Literal.resolvePairs clock pairs = pairs.map fun e => (e.1, e.2.resolve clock) := by
  induction pairs with
  | nil => rfl
  | cons e rest ih => rw [Literal.resolvePairs, ih, List.map_cons]

mutual

/-- A literal stands for a value with the property when its numbers have it. -/
theorem stable_resolve {P : Value → Prop} (hP : Value.Stable P) (clock : Clock) :
    ∀ {ts : List Token} {l : Literal}, LiteralOf ts l →
      (∀ n, .number n ∈ ts → P (.number n)) → P (l.resolve clock)
  | _, _, .number n, hn => hn n List.mem_cons_self
  | _, _, .string s, _ => hP.string s
  | _, _, .boolean b, _ => hP.boolean b
  | _, _, .null, _ => hP.null
  | _, _, .now, _ => hP.string _
  | _, _, .today, _ => hP.string _
  | _, _, .list h, hn => by
    refine hP.array_iff.2 ?_
    rw [Literal.resolveItems_eq_map, List.forall_mem_map]
    exact stable_resolveItems hP clock h fun n hmem => hn n (by simp [hmem])
  | _, _, .object h hfields, hn => by
    have hpairs := stable_resolvePairs hP clock h fun n hmem => hn n (by simp [hmem])
    refine hP.ofPairs ?_
    rw [resolvePairs_eq_map, List.forall_mem_map]
    intro e he
    rw [← Fields.collects_iff.1 hfields] at he
    exact hpairs e (Fields.mem_ofPairs he)

theorem stable_resolveItems {P : Value → Prop} (hP : Value.Stable P) (clock : Clock) :
    ∀ {ts : List Token} {items : List Literal}, ItemsOf ts items →
      (∀ n, .number n ∈ ts → P (.number n)) → ∀ l ∈ items, P (l.resolve clock)
  | _, _, .nil, _ => nofun
  | _, _, .last h, hn => List.forall_mem_singleton.2 (stable_resolve hP clock h hn)
  | _, _, .cons h hrest, hn =>
    List.forall_mem_cons.2 ⟨stable_resolve hP clock h fun n hmem => hn n (by simp [hmem]),
      stable_resolveItems hP clock hrest fun n hmem => hn n (by simp [hmem])⟩

theorem stable_resolvePairs {P : Value → Prop} (hP : Value.Stable P) (clock : Clock) :
    ∀ {ts : List Token} {pairs : List (String × Literal)}, PairsOf ts pairs →
      (∀ n, .number n ∈ ts → P (.number n)) → ∀ e ∈ pairs, P (e.2.resolve clock)
  | _, _, .nil, _ => nofun
  | _, _, .last _ h, hn =>
    List.forall_mem_singleton.2 (stable_resolve hP clock h fun n hmem => hn n (by simp [hmem]))
  | _, _, .cons _ h hrest, hn =>
    List.forall_mem_cons.2 ⟨stable_resolve hP clock h fun n hmem => hn n (by simp [hmem]),
      stable_resolvePairs hP clock hrest fun n hmem => hn n (by simp [hmem])⟩

end

end Grammar

/-! ### The literals of an action -/

/-- The literals that a verb writes or looks for. -/
def Verb.literals : Verb → List Literal
  | append l | prepend l | insert l _ | removeAll l | removeFirst l | merge l _ => [l]
  | update assignments => assignments.map Prod.snd
  | _ => []

/-- The literals of an operation, conditions apart. -/
def Operation.literals : Operation → List Literal
  | set _ l => [l]
  | collection _ _ verb => verb.literals
  | _ => []

namespace Grammar

variable {ts : List Token}

theorem literalOf_of_assignedOf {l : Literal} (h : AssignedOf ts l) :
    ∃ us, us ⊆ ts ∧ LiteralOf us l := by
  cases h with
  | plain h => exact ⟨_, List.Subset.refl _, h⟩
  | equal h => exact ⟨_, List.subset_cons_self _ _, h⟩

theorem literals_of_plainVerbOf {verb : Verb} (h : PlainVerbOf ts verb) :
    ∀ l ∈ verb.literals, ∃ us, us ⊆ ts ∧ LiteralOf us l := by
  cases h with
  | insert h _ => exact List.forall_mem_singleton.2 ⟨_, by simp, h⟩
  | sort _ => exact nofun
  | sortBy _ _ => exact nofun
  | moveIndex _ _ => exact nofun
  | deduplicate => exact nofun
  | append h | prepend h | removeAll h | removeFirst h | merge h | mergeOverwrite h =>
    exact List.forall_mem_singleton.2 ⟨_, List.subset_cons_self _ _, h⟩

theorem literals_of_filteredVerbOf {verb : Verb} (h : FilteredVerbOf ts verb) :
    ∀ l ∈ verb.literals, ∃ us, us ⊆ ts ∧ LiteralOf us l := by
  cases h with
  | set h =>
    intro l hl
    obtain ⟨a, ha, rfl⟩ := List.mem_map.1 hl
    obtain ⟨us, hus, -, hassigned⟩ := exists_of_separatedOf h a ha
    obtain ⟨vs, hvs, hof⟩ := literalOf_of_assignedOf hassigned
    have hassigned := List.Subset.trans (List.subset_append_right _ _) hus
    have hitem := List.Subset.trans hvs hassigned
    exact ⟨vs, List.Subset.trans hitem (List.subset_cons_self _ _), hof⟩
  | _ => exact nofun

theorem literals_of_fieldItemOf {verb : FieldVerb} {op : Operation}
    (h : FieldItemOf verb ts op) : ∀ l ∈ op.literals, ∃ us, us ⊆ ts ∧ LiteralOf us l := by
  cases h with
  | set _ h =>
    obtain ⟨us, hus, hof⟩ := literalOf_of_assignedOf h
    exact List.forall_mem_singleton.2
      ⟨us, List.Subset.trans hus (List.subset_append_right _ _), hof⟩
  | _ => exact nofun

/-- Every literal of an action stands in its tokens. -/
theorem literals_of_actionOf {action : Action} (h : ActionOf ts action) :
    ∀ op ∈ action.operations, ∀ l ∈ op.literals, ∃ us, us ⊆ ts ∧ LiteralOf us l := by
  cases h with
  | fields _ h =>
    intro op hop l hl
    obtain ⟨us, hus, hitem⟩ := exists_of_separatedOf h op hop
    obtain ⟨vs, hvs, hof⟩ := literals_of_fieldItemOf hitem l hl
    have hitem := List.Subset.trans hvs hus
    exact ⟨vs, List.Subset.trans hitem (List.subset_cons_self _ _), hof⟩
  | plain _ h =>
    refine List.forall_mem_singleton.2 fun l hl => ?_
    obtain ⟨us, hus, hof⟩ := literals_of_plainVerbOf h l hl
    exact ⟨us, List.Subset.trans hus (List.subset_append_right _ _), hof⟩
  | filtered _ _ h =>
    refine List.forall_mem_singleton.2 fun l hl => ?_
    obtain ⟨us, hus, hof⟩ := literals_of_filteredVerbOf h l hl
    exact ⟨us, List.Subset.trans hus (List.subset_append_right _ _), hof⟩

end Grammar

/-- The literals of rule text stand for values with every property that edits keep, if the
numbers that digits stand for have it. -/
theorem Action.stable_literals {text : String} {action : Action}
    (h : Action.ofText text = .ok action) {P : Value → Prop} (hP : Value.Stable P)
    (hnumber : ∀ n : Number, n.IsDecimal → P (.number n)) (clock : Clock) :
    ∀ op ∈ action.operations, ∀ l ∈ op.literals, P (l.resolve clock) := by
  intro op hop l hl
  obtain ⟨scan, hscan, haction⟩ := exists_actionOf h
  obtain ⟨us, hus, hof⟩ := Grammar.literals_of_actionOf haction op hop l hl
  exact Grammar.stable_resolve hP clock hof fun n hn =>
    hnumber n (isDecimal_of_tokenize hscan (hus hn))

end MetadataRules
