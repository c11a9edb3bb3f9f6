/-
MetadataRules/Proofs/Rule/Trail.lean

How a list of tokens ends.

Whether a list ends in a path, in a dot behind one or in a `NOT` behind one is
found by a scan with four states, one token a step (`Trail.run`), and the state
tells what the list ends in (`Trail.describes_run`).  Phrases go through the
scan as wholes: from a state outside paths a literal or a condition leads to
one where no path goes on, so a word behind it begins something new
(`Trail.settled_disjunctionOf`).
-/
import MetadataRules.Proofs.Rule.Predicate

namespace MetadataRules

open Grammar Read

/-- The tokens end in a path and a `NOT` behind it. -/
def EndsInNot (w : List Token) : Prop :=
  ∃ front path p, w = front ++ path ++ [.keyword .not] ∧ PathOf path p

/-- What a list of tokens ends in: a path, a dot behind one, a `NOT` behind one, or nothing of
these. -/
inductive Trail where
  | plain
  | path
  | dotted
  | negated
deriving DecidableEq

namespace Trail

variable {s : Trail} {t : Token} {w : List Token} {p : Path} {mark : Bool} {c : Condition}

/-- One token more. -/
def next (s : Trail) (t : Token) : Trail :=
  if (firstSegment? t).isSome || s == .dotted && (nextSegment? t).isSome then .path
  else if s = .path ∧ t = .dot then .dotted
  else if s = .path ∧ t = .keyword .not then .negated
  else .plain

/-- A list of tokens more. -/
def run (s : Trail) (w : List Token) : Trail := w.foldl next s

@[simp] theorem run_nil (s : Trail) : s.run [] = s := rfl

@[simp] theorem run_cons (s : Trail) (t : Token) (w : List Token) :
    s.run (t :: w) = (s.next t).run w := rfl

@[simp] theorem run_append_eq (s : Trail) (v w : List Token) :
    s.run (v ++ w) = (s.run v).run w := List.foldl_append

/-! ### What the state tells -/

/-- The list ends in a path. -/
def EndsInPath (w : List Token) : Prop := ∃ front path p, w = front ++ path ∧ PathOf path p

/-- What a state tells of the tokens that led to it. -/
def Describes : Trail → List Token → Prop
  | plain, _ => True
  | path, w => EndsInPath w
  | dotted, w => ∃ front, w = front ++ [.dot] ∧ EndsInPath front
  | negated, w => EndsInNot w

theorem stepsOf_concat {v : List Token} {ss : List Segment} {seg : Segment} (h : StepsOf v ss)
    (ht : NextOf t seg) : StepsOf (v ++ [.dot, t]) (ss ++ [seg]) := by
  induction h with
  | nil => exact .cons ht .nil
  | cons h _ ih => exact .cons h ih

theorem EndsInPath.concat {seg : Segment} (h : EndsInPath w) (ht : NextOf t seg) :
    EndsInPath (w ++ [.dot, t]) := by
  obtain ⟨front, _, _, rfl, hfirst, hsteps⟩ := h
  exact ⟨front, _, _, List.append_assoc .., .intro hfirst (stepsOf_concat hsteps ht)⟩

theorem Describes.next (h : s.Describes w) (t : Token) : (s.next t).Describes (w ++ [t]) := by
  unfold Trail.next
  split
  case isTrue hpath =>
    rcases Bool.or_eq_true_iff.1 hpath with hfirst | hnext
    · obtain ⟨seg, hseg⟩ := Option.isSome_iff_exists.1 hfirst
      exact ⟨w, [t], _, rfl, .intro (firstSegment?_eq_some_iff.1 hseg) .nil⟩
    · obtain ⟨hdotted, hnext⟩ := Bool.and_eq_true_iff.1 hnext
      obtain ⟨seg, hseg⟩ := Option.isSome_iff_exists.1 hnext
      obtain rfl := beq_iff_eq.1 hdotted
      obtain ⟨front, rfl, hfront⟩ := h
      rw [List.append_assoc]
      exact hfront.concat (nextSegment?_eq_some_iff.1 hseg)
  case isFalse =>
    split
    case isTrue hdot =>
      obtain ⟨rfl, rfl⟩ := hdot
      exact ⟨w, rfl, h⟩
    case isFalse =>
      split
      case isTrue hnot =>
        obtain ⟨rfl, rfl⟩ := hnot
        obtain ⟨front, path, p, rfl, hp⟩ := h
        exact ⟨front, path, p, rfl, hp⟩
      case isFalse => trivial

/-- The state describes the tokens that were scanned. -/
theorem describes_run (w : List Token) : (plain.run w).Describes w := by
  induction w using List.reverseRecOn with
  | nil => trivial
  | append_singleton w t ih =>
    rw [run_append_eq]
    exact ih.next t

/-! ### Paths -/

theorem next_of_firstOf {seg : Segment} (h : FirstOf t seg) (s : Trail) : s.next t = .path := by
  rw [next, firstSegment?_eq_some_iff.2 h]
  rfl

theorem next_dotted_of_nextOf {seg : Segment} (h : NextOf t seg) : dotted.next t = .path := by
  rw [next, nextSegment?_eq_some_iff.2 h]
  exact if_pos (Bool.or_true _)

theorem run_stepsOf {ss : List Segment} (h : StepsOf w ss) : path.run w = .path := by
  induction h with
  | nil => rfl
  | cons ht _ ih =>
    have hdot : path.next .dot = .dotted := rfl
    rw [run_cons, run_cons, hdot, next_dotted_of_nextOf ht, ih]

@[simp] theorem run_pathOf (h : PathOf w p) (s : Trail) : s.run w = .path := by
  obtain ⟨hfirst, hsteps⟩ := h
  rw [run_cons, next_of_firstOf hfirst, run_stepsOf hsteps]

/-- **The scan finds `NOT` behind a path.** -/
theorem run_eq_negated_iff : plain.run w = .negated ↔ EndsInNot w := by
  constructor
  · intro h
    have hdescribes := describes_run w
    rwa [h] at hdescribes
  · rintro ⟨front, path, p, rfl, hp⟩
    rw [run_append_eq, run_append_eq, run_pathOf hp]
    rfl

/-! ### Phrases -/

/-- A state in which a phrase is complete: the list ends in a path or in none of these. -/
def Settled (s : Trail) : Prop := s = .plain ∨ s = .path

theorem Settled.ne_negated (h : s.Settled) : s ≠ .negated := by
  rcases h with rfl | rfl <;> decide

theorem settled_plain : plain.Settled := .inl rfl

theorem settled_path : path.Settled := .inr rfl

/-- Behind a phrase a word or a sign that goes on with no path begins something new. -/
theorem Settled.next_eq_plain (h : s.Settled) (hfirst : firstSegment? t = none) (hdot : t ≠ .dot)
    (hnot : t ≠ .keyword .not) : s.next t = .plain := by
  rcases h with rfl | rfl <;> simp [next, hfirst, hdot, hnot]

theorem settled_keyOf {key : String} (h : KeyOf t key) : (plain.next t).Settled := by
  cases h with
  | keyword => exact settled_plain
  | _ => exact settled_path

theorem settled_literalOf {l : Literal} (h : LiteralOf w l) : (plain.run w).Settled := by
  cases h with
  | string s => exact settled_path
  | list h =>
    -- a closing bracket belongs to no path
    refine .inl ?_
    rw [run_append_eq]
    simp [next, firstSegment?, nextSegment?]
  | object h hfields =>
    refine .inl ?_
    rw [run_append_eq]
    simp [next, firstSegment?, nextSegment?]
  | _ => exact settled_plain

theorem settled_membershipOf (h : MembershipOf p w c) (hs : s ≠ .dotted) : (s.run w).Settled := by
  obtain ⟨v, l, hl, ⟨rfl, -⟩ | ⟨rfl, -⟩⟩ := membershipOf_iff.1 h
  all_goals
    rw [run_cons]
    cases s <;> first | exact absurd rfl hs | exact settled_literalOf hl

theorem settled_predicateOf (h : PredicateOf p w c) : (path.run w).Settled := by
  cases h with
  | compare hop h =>
    cases hop <;> exact settled_literalOf h
  | member h => exact settled_membershipOf h (by decide)
  | notMember h =>
    rw [run_cons]
    exact settled_membershipOf h (by decide)
  | truthy => exact settled_path
  | _ => exact settled_plain

mutual

/-- A condition leads from a place outside paths to one where no path goes on. -/
theorem settled_disjunctionOf : ∀ {mark : Bool} {w : List Token} {c : Condition},
    DisjunctionOf mark w c → (plain.run w).Settled
  | _, _, _, .single h => settled_conjunctionOf h
  | _, _, _, .or hleft hright => by
    rw [run_append_eq, run_cons, (settled_disjunctionOf hleft).next_eq_plain rfl (by decide)
      (by decide)]
    exact settled_conjunctionOf hright

theorem settled_conjunctionOf : ∀ {mark : Bool} {w : List Token} {c : Condition},
    ConjunctionOf mark w c → (plain.run w).Settled
  | _, _, _, .single h => settled_unaryOf h
  | _, _, _, .and hleft hright => by
    rw [run_append_eq, run_cons, (settled_conjunctionOf hleft).next_eq_plain rfl (by decide)
      (by decide)]
    exact settled_unaryOf hright

theorem settled_unaryOf : ∀ {mark : Bool} {w : List Token} {c : Condition},
    UnaryOf mark w c → (plain.run w).Settled
  | _, _, _, .notHas hp => .inr (run_pathOf hp _)
  | _, _, _, .not _ h => by
    rw [run_cons]
    exact settled_unaryOf h
  | _, _, _, .atom h => settled_atomOf h

theorem settled_atomOf : ∀ {mark : Bool} {w : List Token} {c : Condition},
    AtomOf mark w c → (plain.run w).Settled
  | _, _, _, .paren h => by
    rw [run_append_eq]
    exact .inl (by simp [next, firstSegment?, nextSegment?])
  | _, _, _, .has hp => .inr (run_pathOf hp _)
  | _, _, _, .any hp h => by
    rw [run_append_eq, run_cons, run_cons, run_pathOf hp]
    exact settled_disjunctionOf h
  | _, _, _, .test hp h => by
    rw [run_append_eq, run_pathOf hp]
    exact settled_predicateOf h

end

end Trail

end MetadataRules
