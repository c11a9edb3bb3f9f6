/-
MetadataRules/Literal.lean

Values as they are written in rule text.

A literal differs from a value by the two words for the clock, which are read
when the rule runs, and by the pairs of an object, which may repeat a key.
`resolve` turns it into a value under a clock.
-/
import MetadataRules.Clock
import MetadataRules.Value.Basic

namespace MetadataRules

/-- A value of rule text. -/
inductive Literal where
  | null
  | boolean (b : Bool)
  | number (n : Number)
  | string (s : String)
  | array (items : List Literal)
  | object (pairs : List (String × Literal))
  | now
  | today

namespace Literal

mutual

/-- The value that a literal stands for under a clock. -/
def resolve (clock : Clock) : Literal → Value
  | .null => .null
  | .boolean b => .boolean b
  | .number n => .number n
  | .string s => .string s
  | .array items => .array (resolveItems clock items)
  | .object pairs => .object (Fields.ofPairs (resolvePairs clock pairs))
  | .now => .string clock.dateTime
  | .today => .string clock.date

def resolveItems (clock : Clock) : List Literal → List Value
  | [] => []
  | l :: rest => resolve clock l :: resolveItems clock rest

def resolvePairs (clock : Clock) : List (String × Literal) → List (String × Value)
  | [] => []
  | (key, l) :: rest => (key, resolve clock l) :: resolvePairs clock rest

end

/-! ### Equality -/

mutual

/-- The same literal, written in the same order. -/
def same : Literal → Literal → Bool
  | .null, .null => true
  | .boolean a, .boolean b => a == b
  | .number a, .number b => decide (a = b)
  | .string a, .string b => a == b
  | .array as, .array bs => sameItems as bs
  | .object ps, .object qs => samePairs ps qs
  | .now, .now => true
  | .today, .today => true
  | _, _ => false

def sameItems : List Literal → List Literal → Bool
  | [], [] => true
  | a :: as, b :: bs => same a b && sameItems as bs
  | _, _ => false

def samePairs : List (String × Literal) → List (String × Literal) → Bool
  | [], [] => true
  | (k, a) :: ps, (l, b) :: qs => k == l && same a b && samePairs ps qs
  | _, _ => false

end

mutual

theorem same_iff (a b : Literal) : same a b = true ↔ a = b := by
  cases a <;> cases b <;> simp [same, sameItems_iff, samePairs_iff]

theorem sameItems_iff (as bs : List Literal) : sameItems as bs = true ↔ as = bs := by
  cases as <;> cases bs <;> simp [sameItems, same_iff, sameItems_iff]

theorem samePairs_iff (ps qs : List (String × Literal)) : samePairs ps qs = true ↔ ps = qs := by
  cases ps <;> cases qs <;> simp [samePairs, same_iff, samePairs_iff, Prod.ext_iff]

end

instance : DecidableEq Literal := fun a b => decidable_of_iff _ (same_iff a b)

/-! ### Lists -/

/-- The entries of a list; any other literal is a list of one. -/
def entries : Literal → List Literal
  | .array items => items
  | l => [l]

theorem resolveItems_eq_map (clock : Clock) (items : List Literal) :
    resolveItems clock items = items.map (resolve clock) := by
  induction items with
  | nil => rfl
  | cons l rest ih => simp [resolveItems, ih]

end Literal

end MetadataRules
