/-
MetadataRules/Proofs/Rule/Embedded.lean

Conditions as filters.

A condition that was tried on its own means the same as the filter of an
action.  The lexer does not mind what stands on the other side of white space,
and by the grammar a filter is any condition with a verb behind it, though the
condition ends in a bare path or in the body of an `ANY`.  So the text of a
collection's path, of a condition and of a verb can be put together
(`Action.ofText_collection`), and the same goes for a condition that says where
elements are moved to (`Action.ofText_embedded`).
-/
import MetadataRules.Proofs.Rule.WellFormed
import MetadataRules.Proofs.Token.Spelling

namespace MetadataRules

open Grammar

/-! ### Texts and their tokens -/

/-- The tokens of a text, without their places. -/
def Spells (text : String) (w : List Token) : Prop :=
  ∃ scan, tokenize text = .ok scan ∧ Placed.tokens scan.tokens = w

theorem spells_iff_scans {text : String} {w : List Token} :
    Spells text w ↔ Lexer.Scans false text.toList w := Iff.rfl

/-- A space between two texts keeps their tokens apart. -/
theorem Spells.append {a b : String} {u v : List Token} (ha : Spells a u) (hb : Spells b v) :
    Spells (a ++ " " ++ b) (u ++ v) := by
  obtain ⟨first, hfirst, rfl⟩ := ha
  obtain ⟨second, hsecond, rfl⟩ := hb
  have hspace : ∀ c ∈ [' '], isBlank c = true := List.forall_mem_singleton.2 (by decide)
  have htext : (a ++ " " ++ b).toList = a.toList ++ ' ' :: ([] ++ b.toList) := by
    simp [String.toList_append]
  exact exists_tokenize_append hfirst hsecond hspace htext

/-- A text that is read as a condition is that condition by the grammar. -/
theorem Condition.exists_spells {text : String} {c : Condition}
    (h : Condition.ofText text = .ok c) : ∃ w, Spells text w ∧ ConditionOf w c := by
  unfold Condition.ofText readText at h
  split at h
  · cases h
  · rename_i scan hscan
    split at h
    · cases h
    · rename_i c' hread
      obtain rfl := Except.ok.inj h
      have hreads := Read.wholeCondition_eq_ok_iff.1 hread
      obtain ⟨used, heq, hof⟩ := Read.conditionOf_of_reads hreads
      rw [List.append_nil] at heq
      exact ⟨_, ⟨scan, hscan, congrArg Placed.tokens heq⟩, hof⟩

/-- A text that is a condition by the grammar is read as that condition. -/
theorem Condition.ofText_of_spells {text : String} {w : List Token} {c : Condition}
    (h : Spells text w) (hof : ConditionOf w c) : Condition.ofText text = .ok c := by
  obtain ⟨scan, hscan, rfl⟩ := h
  have hread : (Read.disjunction scan.tokens).Reads c [] := by
    rw [← List.append_nil scan.tokens]
    exact Read.reads_of_conditionOf hof Read.ends_nil
  rw [Condition.ofText, readText, hscan]
  dsimp only
  rw [Read.wholeCondition_eq_ok_iff.2 hread]

/-- A text that is an action by the grammar is read as that action. -/
theorem Action.ofText_of_spells {text : String} {w : List Token} {action : Action}
    (h : Spells text w) (hof : ActionOf w action) : Action.ofText text = .ok action := by
  obtain ⟨scan, hscan, rfl⟩ := h
  have hread : Read.wholeAction scan.tokens = .ok action := Read.wholeAction_eq_ok_iff.2 hof
  rw [Action.ofText, readText, hscan]
  dsimp only
  rw [hread]

/-! ### Filters -/

/-- The texts of a path, of a condition and of a verb make the text of an action. -/
theorem Action.ofText_collection {target filter verb : String} {ts vs : List Token} {p : Path}
    {c : Condition} {v : Verb} (htarget : Spells target ts) (hp : PathOf ts p)
    (hc : Condition.ofText filter = .ok c) (hverb : Spells verb vs) (hv : FilteredVerbOf vs v) :
    Action.ofText ("FOR" ++ " " ++ target ++ " " ++ "WHERE" ++ " " ++ filter ++ " " ++ verb) =
      .ok ⟨[.collection p (some c) v]⟩ := by
  obtain ⟨us, hfilter, hof⟩ := Condition.exists_spells hc
  have hfor : Spells "FOR" [.keyword .for_] := ⟨⟨[⟨_, 0⟩], 3⟩, by decide +kernel, rfl⟩
  have hwhere : Spells "WHERE" [.keyword .where_] := ⟨⟨[⟨_, 0⟩], 5⟩, by decide +kernel, rfl⟩
  have htext := (((hfor.append htarget).append hwhere).append hfilter).append hverb
  apply Action.ofText_of_spells htext
  simpa using ActionOf.filtered hp hof hv

/-- **A condition that was tried on its own can be used inside an action as it is**: it is the
filter, or the place to move to, whatever it ends in. -/
theorem Action.ofText_embedded {t u : String} {c d : Condition}
    (hc : Condition.ofText t = .ok c) (hd : Condition.ofText u = .ok d) :
    Action.ofText ("FOR x WHERE " ++ t ++ " REMOVE") =
        .ok ⟨[.collection ⟨[.key "x"]⟩ (some c) .removeMatching]⟩ ∧
      Action.ofText ("FOR x WHERE " ++ t ++ " MOVE TO AFTER " ++ u) =
        .ok ⟨[.collection ⟨[.key "x"]⟩ (some c) (.moveMatching (.after d))]⟩ ∧
      Action.ofText ("FOR x WHERE " ++ t ++ " MOVE TO BEFORE " ++ u) =
        .ok ⟨[.collection ⟨[.key "x"]⟩ (some c) (.moveMatching (.before d))]⟩ ∧
      Action.ofText ("FOR x WHERE " ++ t ++ " SET f 1") =
        .ok ⟨[.collection ⟨[.key "x"]⟩ (some c) (.update [(⟨[.key "f"]⟩, .number .one)])]⟩ := by
  have hx : Spells "x" [.identifier "x"] := ⟨⟨[⟨_, 0⟩], 1⟩, by decide +kernel, rfl⟩
  have hpath : PathOf [.identifier "x"] ⟨[.key "x"]⟩ := .intro (.name "x") .nil
  -- the action with any verb behind the condition
  have haction : ∀ {text verb : String} {vs : List Token} {v : Verb},
      text = "FOR x WHERE " ++ t ++ (" " ++ verb) → Spells verb vs → FilteredVerbOf vs v →
      Action.ofText text = .ok ⟨[.collection ⟨[.key "x"]⟩ (some c) v]⟩ := by
    intro text verb vs v htext hverb hv
    have hfront : "FOR x WHERE " = "FOR" ++ " " ++ "x" ++ " " ++ "WHERE" ++ " " := by decide
    rw [htext, hfront, ← String.append_assoc]
    exact ofText_collection hx hpath hc hverb hv
  obtain ⟨us, hu, hof⟩ := Condition.exists_spells hd
  refine ⟨?remove, ?after, ?before, ?set⟩
  case remove =>
    have hword : " REMOVE" = " " ++ "REMOVE" := by decide
    have hverb : Spells "REMOVE" [.keyword .remove] := ⟨⟨[⟨_, 0⟩], 6⟩, by decide +kernel, rfl⟩
    exact haction (congrArg _ hword) hverb .remove
  case after =>
    have hwords : " MOVE TO AFTER " = " " ++ "MOVE TO AFTER" ++ " " := by decide
    have hverb : Spells "MOVE TO AFTER" [.keyword .move, .keyword .to_, .keyword .after] :=
      ⟨⟨[⟨_, 0⟩, ⟨_, 5⟩, ⟨_, 8⟩], 13⟩, by decide +kernel, rfl⟩
    refine haction ?_ (hverb.append hu) (.move (.after hof))
    rw [hwords]
    simp only [String.append_assoc]
  case before =>
    have hwords : " MOVE TO BEFORE " = " " ++ "MOVE TO BEFORE" ++ " " := by decide
    have hverb : Spells "MOVE TO BEFORE" [.keyword .move, .keyword .to_, .keyword .before] :=
      ⟨⟨[⟨_, 0⟩, ⟨_, 5⟩, ⟨_, 8⟩], 14⟩, by decide +kernel, rfl⟩
    refine haction ?_ (hverb.append hu) (.move (.before hof))
    rw [hwords]
    simp only [String.append_assoc]
  case set =>
    have hwords : " SET f 1" = " " ++ "SET f 1" := by decide
    have hverb : Spells "SET f 1" [.keyword .set, .identifier "f", .number .one] :=
      ⟨⟨[⟨_, 0⟩, ⟨_, 4⟩, ⟨_, 6⟩], 7⟩, by decide +kernel, rfl⟩
    have hfield : PathOf [.identifier "f"] ⟨[.key "f"]⟩ := .intro (.name "f") .nil
    have hassignment := AssignmentOf.intro hfield (.plain (.number .one))
    exact haction (congrArg _ hwords) hverb (.set (.single hassignment))

/-- A filter ends where the verb begins, though it is an `ANY` that ends in a bare number. -/
theorem Action.ofText_embedded_any :
    Condition.ofText "ANY a WHERE b IN 1" =
        .ok (.anyElement ⟨[.key "a"]⟩ (.oneOf ⟨[.key "b"]⟩ [.number .one])) ∧
      Condition.ofText "NOT d" = .ok (.not (.truthy ⟨[.key "d"]⟩)) ∧
      Action.ofText ("FOR x WHERE " ++ "ANY a WHERE b IN 1" ++ " MOVE TO AFTER " ++ "NOT d") =
        .ok ⟨[.collection ⟨[.key "x"]⟩
          (some (.anyElement ⟨[.key "a"]⟩ (.oneOf ⟨[.key "b"]⟩ [.number .one])))
          (.moveMatching (.after (.not (.truthy ⟨[.key "d"]⟩))))]⟩ := by
  have hc : Condition.ofText "ANY a WHERE b IN 1" =
      .ok (.anyElement ⟨[.key "a"]⟩ (.oneOf ⟨[.key "b"]⟩ [.number .one])) := by decide +kernel
  have hd : Condition.ofText "NOT d" = .ok (.not (.truthy ⟨[.key "d"]⟩)) := by decide +kernel
  obtain ⟨-, hafter, -, -⟩ := ofText_embedded hc hd
  exact ⟨hc, hd, hafter⟩

end MetadataRules
