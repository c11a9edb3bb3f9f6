/-
MetadataRules/Proofs/Rule/Verb.lean

The readers of verbs on collections and the grammar.

The reader of a verb takes a filter or refuses one, so there are two pairs of
lemmas: without a filter it reads the verbs that take none
(`Read.plainVerbOf_of_reads`), with one the verbs that need it
(`Read.filteredVerbOf_of_reads`).
-/
import MetadataRules.Proofs.Rule.Condition
import MetadataRules.Proofs.Rule.FieldAction

namespace MetadataRules

open Grammar Attempt

namespace Read

variable {ts rest used : List Placed}

/-! ### Assignments to elements -/

/-- What reads one assignment: a path, and then the value for it. -/
def ReadsAssignment (target : Path) (ts : List Placed) (a : Path × Literal)
    (rest : List Placed) : Prop :=
  ∃ mid, (path (.assignedField target) ts).Reads a.1 mid ∧ (assigned a.1 mid).Reads a.2 rest

theorem readsSeparated_assignments (target : Path) :
    ReadsSeparated (ReadsAssignment target)
      fun ts as rest => (assignments target ts).Reads as rest := by
  intro ts as rest
  dsimp only [ReadsAssignment]
  rw [assignments]
  rcases path (.assignedField target) ts with e | p
  · simp
  · simp only [Prod.exists, reads_ok]
    rcases hvalue : assigned p.value p.rest with e | value
    · simp [hvalue]
    · dsimp only
      split
      · simp [*]
      · rename_i t behind hrest
        by_cases ht : t.token = .comma
        · simp [ht, hrest, hvalue]
        · simp [ht, hrest, hvalue]

theorem assignmentOf_of_reads {target : Path} {a : Path × Literal}
    (h : ReadsAssignment target ts a rest) :
    rest.length < ts.length ∧ ∃ used, ts = used ++ rest ∧ AssignmentOf (Placed.tokens used) a := by
  obtain ⟨mid, hp, hl⟩ := h
  refine ⟨Nat.lt_trans hl.length_lt hp.length_lt, ?_⟩
  obtain ⟨used, rfl, hof, -⟩ := reads_path_iff.1 hp
  obtain ⟨used', rfl, hof'⟩ := reads_assigned_iff.1 hl
  exact ⟨used ++ used', by simp, by simpa using AssignmentOf.intro hof hof'⟩

theorem reads_of_assignmentOf {target : Path} {a : Path × Literal}
    (h : AssignmentOf (Placed.tokens used) a) : ReadsAssignment target (used ++ rest) a rest := by
  generalize hw : Placed.tokens used = w at h
  obtain ⟨hp, h⟩ := h
  obtain ⟨used, used', rfl, rfl, rfl⟩ := List.map_eq_append_iff.1 hw
  rw [List.append_assoc]
  exact ⟨_, reads_path_iff.2 ⟨used, rfl, hp, ne_dot_of_assignedOf h rest⟩,
    reads_assigned_iff.2 ⟨used', rfl, h⟩⟩

/-! ### Verbs of collections -/

theorem reads_insertion_iff {target : Path} {v : Verb} :
    (insertion target ts).Reads v rest ↔
      ∃ l mid, (literalFor (.insertedValue target) ts).Reads l mid ∧
        ∃ behind, (keyword .at_ (.insertPosition target) mid).Reads () behind ∧
          ∃ i, (position (.insertIndex target) behind).Reads i rest ∧ .insert l i = v := by
  unfold insertion
  rcases literalFor (.insertedValue target) ts with e | value
  · simp
  · simp only [exists_reads_ok]
    rcases keyword .at_ (.insertPosition target) value.rest with e | k
    · simp
    · simp

theorem reads_moveByIndex_iff {target : Path} {v : Verb} :
    (moveByIndex target ts).Reads v rest ↔
      ∃ i mid, (position (.moveSource target) ts).Reads i mid ∧
        ∃ behind, (keyword .to_ (.moveTo target i) mid).Reads () behind ∧
          ∃ j, (position (.moveTarget target i) behind).Reads j rest ∧ .moveIndex i j = v := by
  unfold moveByIndex
  rcases position (.moveSource target) ts with e | source
  · simp
  · simp only [exists_reads_ok]
    rcases keyword .to_ (.moveTo target source.value) source.rest with e | k
    · simp
    · simp

theorem directionOf_direction (ts : List Placed) :
    ∃ used, ts = used ++ (direction ts).rest ∧
      DirectionOf (Placed.tokens used) (direction ts).value := by
  rcases ts with - | ⟨t, behind⟩
  · exact ⟨[], rfl, .none⟩
  · unfold direction
    dsimp only
    split
    · rename_i ht
      exact ⟨[t], rfl, by simpa [ht] using DirectionOf.desc⟩
    · split
      · rename_i ht
        exact ⟨[t], rfl, by simpa [ht] using DirectionOf.asc⟩
      · exact ⟨[], rfl, .none⟩

theorem direction_of_directionOf {d : SortDirection} (h : DirectionOf (Placed.tokens used) d) :
    (direction used).value = d ∧ (direction used).rest = [] := by
  generalize hw : Placed.tokens used = w at h
  cases h with
  | none =>
    obtain rfl := List.map_eq_nil_iff.1 hw
    exact ⟨rfl, rfl⟩
  | asc =>
    obtain ⟨t, rfl, ht⟩ := List.map_eq_singleton_iff.1 hw
    simp [direction, ht]
  | desc =>
    obtain ⟨t, rfl, ht⟩ := List.map_eq_singleton_iff.1 hw
    simp [direction, ht]

/-- What may stand behind a sort begins with `ASC` or `DESC`, if it is there at all. -/
theorem nextToken?_of_directionOf {d : SortDirection} {t : Token}
    (h : DirectionOf (Placed.tokens used) d) (ht : t ≠ .keyword .asc ∧ t ≠ .keyword .desc) :
    nextToken? used ≠ some t := by
  generalize hw : Placed.tokens used = w at h
  cases h with
  | none =>
    obtain rfl := List.map_eq_nil_iff.1 hw
    exact nofun
  | asc =>
    obtain ⟨u, rfl, hu⟩ := List.map_eq_singleton_iff.1 hw
    rw [nextToken?_cons, hu]
    exact fun heq => ht.1 (Option.some.inj heq).symm
  | desc =>
    obtain ⟨u, rfl, hu⟩ := List.map_eq_singleton_iff.1 hw
    rw [nextToken?_cons, hu]
    exact fun heq => ht.2 (Option.some.inj heq).symm

theorem reads_sorting_iff {target : Path} {v : Verb} :
    (sorting target ts).Reads v rest ↔
      (nextToken? ts ≠ some (.keyword .by_) ∧ .sort none (direction ts).value = v ∧
        (direction ts).rest = rest) ∨
      ∃ t behind, ts = t :: behind ∧ t.token = .keyword .by_ ∧
        ∃ p mid, (path (.sortField target) behind).Reads p mid ∧
          .sort (some p) (direction mid).value = v ∧ (direction mid).rest = rest := by
  rcases ts with - | ⟨t, behind⟩
  · simp [sorting]
  · unfold sorting
    by_cases ht : t.token = .keyword .by_
    · rcases hp : path (.sortField target) behind with e | p <;> simp [ht, hp]
    · simp [ht]

theorem anchor_eq_disjunction {target : Path} {placement : Keyword} {c : Condition} :
    (anchor target placement ts).Reads c rest ↔ (disjunction ts).Reads c rest := by
  rcases ts with - | ⟨t, behind⟩
  · exact iff_of_false (reads_error _) fun h => absurd h.length_lt (Nat.not_lt_zero _)
  · rfl

/-- A destination is read to the end of its condition, if it has one. -/
theorem destinationOf_of_reads {target : Path} {d : Destination}
    (h : (destination target ts).Reads d rest) :
    ∃ used, ts = used ++ rest ∧ DestinationOf (Placed.tokens used) d := by
  rcases ts with - | ⟨t, behind⟩
  · exact (reads_error _ h).elim
  unfold destination at h
  dsimp only at h
  split at h
  case h_1 ht =>
    obtain ⟨rfl, rfl⟩ := reads_ok.1 h
    exact ⟨[t], rfl, by simpa [ht] using DestinationOf.start⟩
  case h_2 ht =>
    obtain ⟨rfl, rfl⟩ := reads_ok.1 h
    exact ⟨[t], rfl, by simpa [ht] using DestinationOf.finish⟩
  case h_3 ht =>
    rw [reads_behind, reads_map] at h
    obtain ⟨c, hc, rfl⟩ := h
    obtain ⟨used, rfl, hof⟩ := conditionOf_of_reads (anchor_eq_disjunction.1 hc)
    exact ⟨t :: used, rfl, by simpa [ht] using DestinationOf.after hof⟩
  case h_4 ht =>
    rw [reads_behind, reads_map] at h
    obtain ⟨c, hc, rfl⟩ := h
    obtain ⟨used, rfl, hof⟩ := conditionOf_of_reads (anchor_eq_disjunction.1 hc)
    exact ⟨t :: used, rfl, by simpa [ht] using DestinationOf.before hof⟩
  case h_5 => exact (reads_error _ h).elim

theorem reads_of_destinationOf {target : Path} {d : Destination}
    (h : DestinationOf (Placed.tokens used) d) (hends : Ends true rest) :
    (destination target (used ++ rest)).Reads d rest := by
  generalize hw : Placed.tokens used = w at h
  cases h with
  | start =>
    obtain ⟨t, rfl, ht⟩ := List.map_eq_singleton_iff.1 hw
    simp [destination, ht]
  | finish =>
    obtain ⟨t, rfl, ht⟩ := List.map_eq_singleton_iff.1 hw
    simp [destination, ht]
  | after h =>
    obtain ⟨t, used, rfl, ht, rfl⟩ := List.map_eq_cons_iff.1 hw
    simp only [List.cons_append, destination, ht, reads_behind, reads_map]
    exact ⟨_, anchor_eq_disjunction.2 (reads_of_conditionOf h hends), rfl⟩
  | before h =>
    obtain ⟨t, used, rfl, ht, rfl⟩ := List.map_eq_cons_iff.1 hw
    simp only [List.cons_append, destination, ht, reads_behind, reads_map]
    exact ⟨_, anchor_eq_disjunction.2 (reads_of_conditionOf h hends), rfl⟩

/-- Without a filter `MOVE` is followed by two positions. -/
theorem reads_moving_none_iff {target : Path} {v : Verb} :
    (moving target none ts).Reads v rest ↔
      ∃ t behind, ts = t :: behind ∧ t.token = .keyword .from_ ∧
        (moveByIndex target behind).Reads v rest := by
  rcases ts with - | ⟨t, behind⟩
  · simp [moving]
  · unfold moving
    dsimp only
    split
    case h_1 ht => simp [ht, refuseFilter]
    case h_2 ht =>
      rcases destination target behind with e | d <;> simp [ht]
    case h_3 hfrom _ => simp [eq_false hfrom]

/-- With a filter `MOVE` is followed by a destination. -/
theorem reads_moving_some_iff {target : Path} {f : Filter} {v : Verb} :
    (moving target (some f) ts).Reads v rest ↔
      ∃ t behind, ts = t :: behind ∧ t.token = .keyword .to_ ∧
        ∃ d, (destination target behind).Reads d rest ∧ .moveMatching d = v := by
  rcases ts with - | ⟨t, behind⟩
  · simp [moving]
  · unfold moving
    dsimp only
    split
    case h_1 ht => simp [ht, refuseFilter]
    case h_2 ht =>
      rcases hd : destination target behind with e | d <;> simp [ht, hd, and_comm]
    case h_3 _ hto => simp [eq_false hto]

theorem reads_valueVerb_none_iff {kw : Keyword} {sample : String} {what : Expectation}
    {verb : Literal → Verb} {v : Verb} :
    (valueVerb none kw sample what verb ts).Reads v rest ↔
      ∃ used l, ts = used ++ rest ∧ LiteralOf (Placed.tokens used) l ∧ verb l = v := by
  simp only [valueVerb, refuseFilter, reads_map, reads_literalFor_iff]
  constructor
  · rintro ⟨l, ⟨used, heq, hof⟩, rfl⟩
    exact ⟨used, l, heq, hof, rfl⟩
  · rintro ⟨used, l, heq, hof, rfl⟩
    exact ⟨l, ⟨used, heq, hof⟩, rfl⟩

/-- What is read behind a verb without a filter makes a verb that takes none. -/
theorem plainVerbOf_of_reads {target : Path} {kw : Keyword} {place : List Placed} {v : Verb}
    (h : (collectionVerb target none kw place ts).Reads v rest) :
    ∃ used, ts = used ++ rest ∧ PlainVerbOf (.keyword kw :: Placed.tokens used) v := by
  unfold collectionVerb at h
  split at h
  case h_1 => exact (reads_error _ h).elim
  case h_2 =>
    obtain ⟨used, l, heq, hof, rfl⟩ := reads_valueVerb_none_iff.1 (reads_behind.1 h)
    exact ⟨used, heq, .append hof⟩
  case h_3 =>
    obtain ⟨used, l, heq, hof, rfl⟩ := reads_valueVerb_none_iff.1 (reads_behind.1 h)
    exact ⟨used, heq, .prepend hof⟩
  case h_4 =>
    obtain ⟨l, mid, hl, behind, hat, i, hi, rfl⟩ := reads_insertion_iff.1 (reads_behind.1 h)
    obtain ⟨used, rfl, hof⟩ := reads_literalFor_iff.1 hl
    obtain ⟨t, rfl, ht⟩ := reads_keyword_iff.1 hat
    obtain ⟨u, n, rfl, hu, hn⟩ := reads_position_iff.1 hi
    exact ⟨used ++ [t, u], by simp, by simpa [ht, hu] using PlainVerbOf.insert hof (.intro hn)⟩
  case h_5 =>
    obtain ⟨used, l, heq, hof, rfl⟩ := reads_valueVerb_none_iff.1 (reads_behind.1 h)
    exact ⟨used, heq, .removeAll hof⟩
  case h_6 =>
    simp only [reads_behind, reads_map] at h
    obtain ⟨l, hl, rfl⟩ := h
    obtain ⟨used, heq, hof⟩ := reads_literalFor_iff.1 hl
    exact ⟨used, heq, .removeFirst hof⟩
  case h_7 =>
    rcases reads_sorting_iff.1 h with ⟨-, rfl, rfl⟩ | ⟨t, behind, rfl, ht, p, mid, hp, rfl, rfl⟩
    · obtain ⟨used, heq, hof⟩ := directionOf_direction ts
      exact ⟨used, heq, .sort hof⟩
    · obtain ⟨used, rfl, hof, -⟩ := reads_path_iff.1 hp
      obtain ⟨used', heq, hof'⟩ := directionOf_direction mid
      refine ⟨t :: (used ++ used'), ?_, by simpa [ht] using PlainVerbOf.sortBy hof hof'⟩
      rw [List.cons_append, List.append_assoc, ← heq]
  case h_8 =>
    obtain ⟨t, behind, rfl, ht, hmove⟩ := reads_moving_none_iff.1 (reads_behind.1 h)
    obtain ⟨i, mid, hi, behind, hto, j, hj, rfl⟩ := reads_moveByIndex_iff.1 hmove
    obtain ⟨u, n, rfl, hu, hn⟩ := reads_position_iff.1 hi
    obtain ⟨w, rfl, hw⟩ := reads_keyword_iff.1 hto
    obtain ⟨x, m, rfl, hx, hm⟩ := reads_position_iff.1 hj
    exact ⟨[t, u, w, x], rfl,
      by simpa [ht, hu, hw, hx] using PlainVerbOf.moveIndex (.intro hn) (.intro hm)⟩
  case h_9 =>
    obtain ⟨rfl, rfl⟩ := reads_ok.1 h
    exact ⟨[], rfl, .deduplicate⟩
  case h_10 =>
    obtain ⟨used, l, heq, hof, rfl⟩ := reads_valueVerb_none_iff.1 (reads_behind.1 h)
    exact ⟨used, heq, .merge hof⟩
  case h_11 =>
    obtain ⟨used, l, heq, hof, rfl⟩ := reads_valueVerb_none_iff.1 (reads_behind.1 h)
    exact ⟨used, heq, .mergeOverwrite hof⟩
  case h_12 => exact (reads_error _ h).elim

/-- A verb that takes no filter is read as itself. -/
theorem reads_of_plainVerbOf {target : Path} {kw : Keyword} {place : List Placed} {v : Verb}
    (h : PlainVerbOf (.keyword kw :: Placed.tokens used) v) :
    (collectionVerb target none kw place used).Reads v [] := by
  generalize hw : Placed.tokens used = w at h
  have reads_value : ∀ {kw sample what verb} {l : Literal}, LiteralOf (Placed.tokens used) l →
      (valueVerb none kw sample what verb used).Reads (verb l) [] := fun h =>
    reads_valueVerb_none_iff.2 ⟨used, _, by simp, h, rfl⟩
  cases h with
  | append h => exact reads_behind.2 (reads_value (hw ▸ h))
  | prepend h => exact reads_behind.2 (reads_value (hw ▸ h))
  | insert h hi =>
    obtain ⟨used, behind, rfl, rfl, hbehind⟩ := List.map_eq_append_iff.1 hw
    obtain ⟨t, behind, rfl, ht, hbehind⟩ := List.map_eq_cons_iff.1 hbehind
    obtain ⟨u, rfl, hu⟩ := List.map_eq_singleton_iff.1 hbehind
    obtain ⟨hn⟩ := hi
    refine reads_behind.2 (reads_insertion_iff.2 ⟨_, _, reads_literalFor_iff.2 ⟨used, rfl, h⟩, _,
      reads_keyword_iff.2 ⟨t, rfl, ht⟩, _, reads_position_iff.2 ⟨u, _, rfl, hu, hn⟩, rfl⟩)
  | removeAll h => exact reads_behind.2 (reads_value (hw ▸ h))
  | removeFirst h =>
    refine reads_behind.2 (reads_map.2 ⟨_, ?_, rfl⟩)
    exact reads_literalFor_iff.2 ⟨used, by simp, hw ▸ h⟩
  | sort h =>
    subst hw
    obtain ⟨rfl, hrest⟩ := direction_of_directionOf h
    have hby : nextToken? used ≠ some (.keyword .by_) :=
      nextToken?_of_directionOf h ⟨nofun, nofun⟩
    exact reads_sorting_iff.2 (.inl ⟨hby, rfl, hrest⟩)
  | sortBy hp h =>
    obtain ⟨t, behind, rfl, ht, hbehind⟩ := List.map_eq_cons_iff.1 hw
    obtain ⟨used, used', rfl, rfl, rfl⟩ := List.map_eq_append_iff.1 hbehind
    obtain ⟨rfl, hrest⟩ := direction_of_directionOf h
    have hdot : nextToken? used' ≠ some .dot := nextToken?_of_directionOf h ⟨nofun, nofun⟩
    exact reads_sorting_iff.2 (.inr
      ⟨t, _, rfl, ht, _, _, reads_path_iff.2 ⟨used, rfl, hp, hdot⟩, rfl, hrest⟩)
  | moveIndex hi hj =>
    obtain ⟨t, behind, rfl, ht, hbehind⟩ := List.map_eq_cons_iff.1 hw
    obtain ⟨u, behind, rfl, hu, hbehind⟩ := List.map_eq_cons_iff.1 hbehind
    obtain ⟨x, behind, rfl, hx, hbehind⟩ := List.map_eq_cons_iff.1 hbehind
    obtain ⟨y, rfl, hy⟩ := List.map_eq_singleton_iff.1 hbehind
    obtain ⟨hn⟩ := hi
    obtain ⟨hm⟩ := hj
    exact reads_behind.2 (reads_moving_none_iff.2 ⟨t, _, rfl, ht, reads_moveByIndex_iff.2
      ⟨_, _, reads_position_iff.2 ⟨u, _, rfl, hu, hn⟩, _, reads_keyword_iff.2 ⟨x, rfl, hx⟩, _,
        reads_position_iff.2 ⟨y, _, rfl, hy, hm⟩, rfl⟩⟩)
  | deduplicate =>
    obtain rfl := List.map_eq_nil_iff.1 hw
    exact reads_ok.2 ⟨rfl, rfl⟩
  | merge h => exact reads_behind.2 (reads_value (hw ▸ h))
  | mergeOverwrite h => exact reads_behind.2 (reads_value (hw ▸ h))

/-- What is read behind a verb with a filter makes a verb that needs one. -/
theorem filteredVerbOf_of_reads {target : Path} {f : Filter} {kw : Keyword} {place : List Placed}
    {v : Verb} (h : (collectionVerb target (some f) kw place ts).Reads v rest) :
    ∃ used, ts = used ++ rest ∧ FilteredVerbOf (.keyword kw :: Placed.tokens used) v := by
  unfold collectionVerb at h
  split at h
  case h_1 =>
    simp only [reads_behind, reads_map] at h
    obtain ⟨as, has, rfl⟩ := h
    obtain ⟨used, heq, hof⟩ :=
      separatedOf_of_reads (readsSeparated_assignments target) assignmentOf_of_reads ts has
    exact ⟨used, heq, .set hof⟩
  case h_6 =>
    dsimp only at h
    split at h
    · exact (reads_error _ h).elim
    · obtain ⟨rfl, rfl⟩ := reads_ok.1 h
      exact ⟨[], rfl, .remove⟩
  case h_8 =>
    obtain ⟨t, behind, rfl, ht, d, hd, rfl⟩ := reads_moving_some_iff.1 (reads_behind.1 h)
    obtain ⟨used, rfl, hof⟩ := destinationOf_of_reads hd
    exact ⟨t :: used, rfl, by simpa [ht] using FilteredVerbOf.move hof⟩
  -- every other verb refuses the filter
  all_goals exact (reads_error _ h).elim

/-- A verb that needs a filter is read as itself behind one. -/
theorem reads_of_filteredVerbOf {target : Path} {f : Filter} {kw : Keyword} {place : List Placed}
    {v : Verb} (h : FilteredVerbOf (.keyword kw :: Placed.tokens used) v) :
    (collectionVerb target (some f) kw place used).Reads v [] := by
  generalize hw : Placed.tokens used = w at h
  cases h with
  | remove =>
    obtain rfl := List.map_eq_nil_iff.1 hw
    exact reads_ok.2 ⟨rfl, rfl⟩
  | move h =>
    obtain ⟨t, used, rfl, ht, rfl⟩ := List.map_eq_cons_iff.1 hw
    have hread : (destination target (used ++ [])).Reads _ [] := reads_of_destinationOf h ends_nil
    rw [List.append_nil] at hread
    exact reads_behind.2 (reads_moving_some_iff.2 ⟨t, _, rfl, ht, _, hread, rfl⟩)
  | set h =>
    subst hw
    exact reads_behind.2 (reads_map.2 ⟨_, reads_of_separatedOf
      (readsSeparated_assignments target) (fun hof _ => reads_of_assignmentOf hof) h, rfl⟩)

end Read

end MetadataRules
