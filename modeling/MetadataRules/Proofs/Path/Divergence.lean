/-
MetadataRules/Proofs/Path/Divergence.lean

Paths that part at a key.

Two lists of steps diverge when they agree up to a step at which they name
different keys.  Different keys are different entries whatever object they
meet, so a change along one path is not seen along the other:

* `Steps.get?_set_of_diverge` — nor are the objects that a write makes on its
  way, whether it is refused in the end or not;
* `Steps.get?_replace_of_diverge`, `Steps.get?_erase_of_diverge`;
* `Steps.get?_rename_of_diverge` — a key that changes its name at its place is
  a change along two paths, the one to its old name and the one to its new.

No such law holds of positions: `0` and `-1` differ and may name one element.
-/
import MetadataRules.Proofs.Path.Access

namespace MetadataRules

/-- Two lists of steps that agree up to a step at which they name different keys. -/
inductive Steps.Diverge : List Segment → List Segment → Prop
  | here {a b : String} (h : a ≠ b) (p q : List Segment) : Diverge (.key a :: p) (.key b :: q)
  | there (s : Segment) {p q : List Segment} (h : Diverge p q) : Diverge (s :: p) (s :: q)

/-- Two paths that part at a key; a leading `@` does not count. -/
def Path.Diverges (p q : Path) : Prop := Steps.Diverge p.steps q.steps

namespace Steps

variable {root new : Value} {old : Option Value} {p q : List Segment}

theorem Diverge.ne_nil_left (h : Diverge p q) : p ≠ [] := by
  cases h <;> exact List.cons_ne_nil _ _

theorem Diverge.symm (h : Diverge p q) : Diverge q p := by
  induction h with
  | here hne p q => exact .here hne.symm q p
  | there s _ ih => exact .there s ih

theorem current_notMem_of_keys (hp : ∀ s ∈ p, ∃ key, s = .key key) : .current ∉ p := by
  intro hmem
  obtain ⟨key, heq⟩ := hp _ hmem
  cases heq

/-- Of two lists of keys one is the beginning of the other, or they part. -/
theorem diverge_of_keys (hp : ∀ s ∈ p, ∃ key, s = .key key) (hq : ∀ s ∈ q, ∃ key, s = .key key)
    (hpq : ¬ p <+: q) (hqp : ¬ q <+: p) : Diverge p q := by
  induction p generalizing q with
  | nil => exact absurd List.nil_prefix hpq
  | cons s p ih =>
    rcases q with - | ⟨t, q⟩
    · exact absurd List.nil_prefix hqp
    · obtain ⟨⟨a, rfl⟩, hp'⟩ := List.forall_mem_cons.1 hp
      obtain ⟨⟨b, rfl⟩, hq'⟩ := List.forall_mem_cons.1 hq
      by_cases hab : a = b
      · subst hab
        rw [List.cons_prefix_cons, and_iff_right rfl] at hpq hqp
        exact .there _ (ih hp' hq' hpq hqp)
      · exact .here hab p q

/-- Different keys are different entries. -/
theorem sameChild_of_ne {a b : String} (h : a ≠ b) (root : Value) :
    root.sameChild (.key a) (.key b) = false := by
  cases root <;> simp [Value.sameChild, h]

/-- Reading below what a write goes on with is reading below what stood there. -/
theorem get?_container {t : Segment} (ht : t ≠ .current) :
    get? (container old) (t :: q) = old.bind fun v => get? v (t :: q) := by
  have hempty : (Value.object []).child? t = none := by
    cases t <;> first | rfl | exact absurd rfl ht
  have hnull : Value.null.child? t = none := by
    cases t <;> first | rfl | exact absurd rfl ht
  rcases old with - | v
  · rw [container, get?_cons, hempty]
    rfl
  · by_cases hv : v = .null
    · subst hv
      rw [container, get?_cons, Option.bind_some, get?_cons, hempty, hnull]
    · rw [container_eq_self hv, Option.bind_some]

/-- **A write is not seen along a diverging path**, refused or not. -/
theorem get?_set_of_diverge (hp : .current ∉ p) (h : Diverge p q) :
    get? (set old p new).value q = old.bind fun v => get? v q := by
  induction h generalizing old with
  | @here a b hne p q =>
    cases hacc : (container old).accepts (.key a) with
    | false =>
      obtain ⟨r, hset⟩ := set_cons_of_not_accepts p new hacc
      rw [hset, get?_container (Segment.key_ne_current _)]
    | true =>
      rw [set_cons_of_accepts hacc, get?_cons,
        Value.child?_putChild_of_not_sameChild hacc (Segment.key_ne_current _)
          (sameChild_of_ne hne _),
        ← get?_cons, get?_container (Segment.key_ne_current _)]
  | @there s p q h ih =>
    obtain ⟨hs, hrest⟩ := Segment.current_notMem_cons.1 hp
    cases hacc : (container old).accepts s with
    | false =>
      obtain ⟨r, hset⟩ := set_cons_of_not_accepts p new hacc
      rw [hset, get?_container hs]
    | true =>
      rw [set_cons_of_accepts hacc, get?_cons, Value.child?_putChild_self hacc,
        Option.bind_some, ih hrest, ← get?_cons, get?_container hs]

theorem get?_replace_of_diverge (hp : .current ∉ p) (h : Diverge p q) :
    get? (replace root p new) q = get? root q := by
  induction h generalizing root with
  | @here a b hne p q =>
    rcases hchild : root.child? (.key a) with - | child
    · simp [replace, hchild]
    · rw [replace_cons hchild, get?_cons,
        Value.child?_putChild_of_not_sameChild
          (Value.accepts_of_child? (Segment.key_ne_current _) hchild)
          (Segment.key_ne_current _) (sameChild_of_ne hne _)]
      rfl
  | @there s p q h ih =>
    obtain ⟨hs, hrest⟩ := Segment.current_notMem_cons.1 hp
    rcases hchild : root.child? s with - | child
    · simp [replace, hchild]
    · rw [replace_cons hchild, get?_cons, get?_cons, hchild,
        Value.child?_putChild_self (Value.accepts_of_child? hs hchild)]
      exact ih hrest

theorem get?_erase_of_diverge {gone rest : Value} (hp : .current ∉ p) (h : Diverge p q)
    (he : erase? root p = some (gone, rest)) : get? rest q = get? root q := by
  induction h generalizing root rest with
  | @here a b hne p q =>
    cases p with
    | nil =>
      rw [get?_cons, get?_cons, Value.child?_of_dropChild? he (Segment.key_ne_current _)
        (sameChild_of_ne hne _)]
    | cons s p =>
      obtain ⟨child, without, hchild, -, rfl⟩ := erase?_cons (List.cons_ne_nil _ _) he
      rw [get?_cons, get?_cons,
        Value.child?_putChild_of_not_sameChild
          (Value.accepts_of_child? (Segment.key_ne_current _) hchild)
          (Segment.key_ne_current _) (sameChild_of_ne hne _)]
  | @there s p q h ih =>
    obtain ⟨hs, hrest⟩ := Segment.current_notMem_cons.1 hp
    cases p with
    | nil => cases h
    | cons t p =>
      obtain ⟨child, without, hchild, hbelow, rfl⟩ := erase?_cons (List.cons_ne_nil _ _) he
      rw [get?_cons, get?_cons, hchild,
        Value.child?_putChild_self (Value.accepts_of_child? hs hchild)]
      exact ih hrest hbelow

/-! ### Renaming in place -/

/-- A path that diverges from the path of an entry diverges from the path of its
object, or goes on with another key of that object. -/
theorem Diverge.of_append_key {parent : List Segment} {key : String}
    (h : Diverge (parent ++ [.key key]) q) :
    Diverge parent q ∨ ∃ other rest, q = parent ++ .key other :: rest ∧ other ≠ key := by
  induction parent generalizing q with
  | nil =>
    cases h with
    | here hne _ rest => exact .inr ⟨_, rest, rfl, Ne.symm hne⟩
    | there s h => cases h
  | cons s parent ih =>
    cases h with
    | here hne _ rest => exact .inl (.here hne _ rest)
    | there _ h =>
      rcases ih h with h | ⟨other, rest, rfl, hne⟩
      · exact .inl (.there s h)
      · exact .inr ⟨other, rest, rfl, hne⟩

/-- A list of steps does not diverge from one that goes on from its end. -/
theorem not_diverge_append {rest : List Segment} : ¬ Diverge p (p ++ rest) := by
  induction p with
  | nil => nofun
  | cons s p ih =>
    intro h
    cases h with
    | here hne => exact hne rfl
    | there _ h => exact ih h

theorem get?_rename_of_diverge {parent : List Segment} {fields : Fields Value}
    {from_ to_ : String} (hp : .current ∉ parent)
    (hparent : get? root parent = some (.object fields))
    (hfrom : Diverge (parent ++ [.key from_]) q) (hto : Diverge (parent ++ [.key to_]) q) :
    get? (replace root parent (.object (Fields.rename fields from_ to_))) q = get? root q := by
  rcases hfrom.of_append_key with h | ⟨other, rest, rfl, hne⟩
  · exact get?_replace_of_diverge hp h
  · have hne' : other ≠ to_ := by
      rcases hto.of_append_key with h | ⟨other', rest', heq, hne'⟩
      · exact (not_diverge_append h).elim
      · simp only [List.append_cancel_left_eq, List.cons.injEq, Segment.key.injEq] at heq
        exact heq.1 ▸ hne'
    rw [get?_append, get?_append, get?_replace_self hparent, hparent, Option.bind_some,
      Option.bind_some, get?_cons, get?_cons]
    simp [Value.child?, Fields.get?_rename_of_ne fields hne hne']

end Steps

end MetadataRules
