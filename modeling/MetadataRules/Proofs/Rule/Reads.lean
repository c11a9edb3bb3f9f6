/-
MetadataRules/Proofs/Rule/Reads.lean

What a reader takes off a list.

`Attempt.Reads r a rest` says that the reader's answer `r` is the phrase `a`
with `rest` behind it.  It forgets the bound that an answer carries, so the
wrappers that only change the bound drop out of it.
-/
import MetadataRules.Rule.Reading

namespace MetadataRules

namespace Taken

variable {τ α β : Type} {n : Nat}

@[simp] theorem value_empty (a : α) (ts : List τ) : (empty a ts).value = a := rfl

@[simp] theorem rest_empty (a : α) (ts : List τ) : (empty a ts).rest = ts := rfl

@[simp] theorem value_single (a : α) (t : τ) (ts : List τ) : (single a t ts).value = a := rfl

@[simp] theorem rest_single (a : α) (t : τ) (ts : List τ) : (single a t ts).rest = ts := rfl

@[simp] theorem rest_map (f : α → β) (p : Taken τ α n) : (p.map f).rest = p.rest := rfl

@[simp] theorem value_behind (p : Taken τ α n) : p.behind.value = p.value := rfl

@[simp] theorem rest_behind (p : Taken τ α n) : p.behind.rest = p.rest := rfl

end Taken

namespace Attempt

variable {ε τ α β : Type} {m n : Nat} {a : α} {b : β} {rest : List τ}

/-- The answer is a phrase and the items behind it. -/
def Reads (r : Attempt ε τ α n) (a : α) (rest : List τ) : Prop :=
  ∃ p, r = .ok p ∧ p.value = a ∧ p.rest = rest

@[simp] theorem reads_error (e : ε) : ¬ Reads (.error e : Attempt ε τ α n) a rest := by
  rintro ⟨p, h, -⟩
  cases h

@[simp] theorem reads_ok {p : Taken τ α n} :
    Reads (.ok p : Attempt ε τ α n) a rest ↔ p.value = a ∧ p.rest = rest := by
  constructor
  · rintro ⟨q, h, hvalue, hrest⟩
    obtain rfl := Except.ok.inj h
    exact ⟨hvalue, hrest⟩
  · exact fun h => ⟨p, rfl, h⟩

theorem exists_reads_ok {p : Taken τ α n} {P : α → List τ → Prop} :
    (∃ a rest, Reads (.ok p : Attempt ε τ α n) a rest ∧ P a rest) ↔ P p.value p.rest := by
  constructor
  · rintro ⟨a, rest, h, hP⟩
    obtain ⟨rfl, rfl⟩ := reads_ok.1 h
    exact hP
  · exact fun hP => ⟨p.value, p.rest, reads_ok.2 ⟨rfl, rfl⟩, hP⟩

/-- What is behind a phrase is shorter than the bound. -/
theorem Reads.length_lt {r : Attempt ε τ α n} (h : Reads r a rest) : rest.length < n := by
  obtain ⟨p, -, -, rfl⟩ := h
  exact p.fewer

@[simp] theorem reads_widen {h : m ≤ n} {r : Attempt ε τ α m} :
    Reads (r.widen h) a rest ↔ Reads r a rest := by
  cases r with
  | error e => exact iff_of_false (reads_error e) (reads_error e)
  | ok p =>
    show Reads (.ok (p.widen h) : Attempt ε τ α n) a rest ↔ _
    rw [reads_ok, reads_ok]
    rfl

@[simp] theorem reads_behind {r : Attempt ε τ α n} : Reads r.behind a rest ↔ Reads r a rest :=
  reads_widen

@[simp] theorem reads_within {h : m < n} {r : Attempt ε τ α m} :
    Reads (Attempt.within h r) a rest ↔ Reads r a rest :=
  reads_widen

@[simp] theorem reads_after {p : Taken τ β n} {r : Attempt ε τ α (p.rest.length + 1)} :
    Reads (Attempt.after p r) a rest ↔ Reads r a rest :=
  reads_widen

@[simp] theorem reads_map {f : β → α} {r : Attempt ε τ β n} :
    Reads (Attempt.map f r) a rest ↔ ∃ b, Reads r b rest ∧ f b = a := by
  cases r with
  | error e =>
    refine iff_of_false (reads_error e) ?_
    rintro ⟨b, h, -⟩
    exact reads_error e h
  | ok p =>
    show Reads (.ok (p.map f) : Attempt ε τ α n) a rest ↔ _
    simp only [reads_ok]
    constructor
    · rintro ⟨hvalue, hrest⟩
      exact ⟨p.value, ⟨rfl, hrest⟩, hvalue⟩
    · rintro ⟨b, ⟨rfl, hrest⟩, hvalue⟩
      exact ⟨hvalue, hrest⟩

end Attempt

end MetadataRules
