/-
MetadataRules/Taken.lean

Reading a phrase off the front of a list.

A phrase that was read comes with the rest of the list.  The rest is shorter
than the list was, and the answer carries the proof: readers that call each
other in turn end because every phrase between two calls of the same reader
takes something away.

Readers make few proofs of their own.  A phrase of one item is `Taken.single`,
one of no item `Taken.empty`; an answer for the items behind something becomes
an answer for the whole list by `behind`, where that is one item, and by `after`
and `within`, where it is a phrase.
-/
namespace MetadataRules

/-- A phrase that was read: its value and the items behind it, fewer than `bound`. -/
structure Taken (τ α : Type) (bound : Nat) where
  value : α
  rest : List τ
  fewer : rest.length < bound

namespace Taken

variable {τ α β : Type} {m n : Nat}

/-- The same phrase with another value. -/
def map (f : α → β) (p : Taken τ α n) : Taken τ β n := ⟨f p.value, p.rest, p.fewer⟩

@[simp] theorem value_map (f : α → β) (p : Taken τ α n) : (p.map f).value = f p.value := rfl

/-- The same phrase, read off a longer list. -/
def widen (p : Taken τ α m) (h : m ≤ n) : Taken τ α n :=
  ⟨p.value, p.rest, Nat.lt_of_lt_of_le p.fewer h⟩

/-- The same phrase, with one more item in front of it. -/
def behind (p : Taken τ α n) : Taken τ α (n + 1) := p.widen (Nat.le_succ n)

/-- The items behind a separator that follows a phrase are fewer still. -/
theorem separated (p : Taken τ α n) {t : τ} {ts : List τ} (h : p.rest = t :: ts) :
    ts.length + 1 < n := by
  have hfewer := p.fewer
  rwa [h, List.length_cons] at hfewer

/-- A phrase of no item. -/
def empty (a : α) (ts : List τ) : Taken τ α (ts.length + 1) :=
  ⟨a, ts, Nat.lt_succ_self ts.length⟩

/-- A phrase of one item, with `rest` behind it. -/
def single (a : α) (t : τ) (rest : List τ) : Taken τ α (t :: rest).length :=
  ⟨a, rest, Nat.lt_succ_self rest.length⟩

end Taken

/-- What a reader answers: a phrase, or why there is none. -/
abbrev Attempt (ε τ α : Type) (bound : Nat) := Except ε (Taken τ α bound)

namespace Attempt

variable {ε τ α β : Type} {m n : Nat}

/-- The same answer with another value. -/
def map (f : α → β) : Attempt ε τ α n → Attempt ε τ β n
  | .ok p => .ok (p.map f)
  | .error e => .error e

/-- The same answer, given for a longer list. -/
def widen (h : m ≤ n) : Attempt ε τ α m → Attempt ε τ α n
  | .ok p => .ok (p.widen h)
  | .error e => .error e

/-- The same answer, given for a list with one more item in front. -/
def behind (r : Attempt ε τ α n) : Attempt ε τ α (n + 1) := r.widen (Nat.le_succ n)

/-- The same answer, given for a list that is longer still. -/
def within (h : m < n) (r : Attempt ε τ α m) : Attempt ε τ α n := r.widen (Nat.le_of_lt h)

/-- The answer of a reader that goes on behind a phrase, given for the list that
the phrase was read off. -/
def after (p : Taken τ α n) (r : Attempt ε τ β (p.rest.length + 1)) : Attempt ε τ β n :=
  r.widen p.fewer

end Attempt

end MetadataRules
