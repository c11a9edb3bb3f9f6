/-
MetadataRules/Proofs/Condition/Address.lean

Conditions about elements, addressed from the document.

Inside `anyElement` the paths of a test start from an element.  The same element
is found from the document by the path of the array and an index, and so is
everything in it (`Path.get?_inElement`).  A test of the element is therefore a
test of the document, once each of its root paths goes on from there
(`Condition.holds_mapRootPaths`), and a condition on some element is such a test
for one of the indices (`Condition.holds_anyElement_iff`).
-/
import MetadataRules.Condition.Basic
import MetadataRules.Proofs.Path.Access

namespace MetadataRules

/-! ### Paths -/

theorem Value.child?_index {items : List Value} {k : Nat} {item : Value}
    (h : items[k]? = some item) : (array items).child? (.index k) = some item := by
  obtain ⟨hlt, -⟩ := List.getElem?_eq_some_iff.1 h
  have hpos : position? (k : Int) items.length = some k := by
    simp [position?, hlt]
  rw [child?_array hpos, h]

namespace Path

variable {p q : Path} {k : Nat} {doc item : Value} {items : List Value}

/-- The path from the document to what `q` leads to in the `k`-th element of the array at `p`. -/
def inElement (p : Path) (k : Nat) (q : Path) : Path := ⟨p.segments ++ .index k :: q.steps⟩

/-- Only a leading `@` is no step, and what is put behind a path is never in front. -/
theorem steps_inElement : (p.inElement k q).steps = p.steps ++ .index k :: q.steps := by
  obtain ⟨segments⟩ := p
  rcases segments with - | ⟨s, rest⟩
  · rfl
  · cases s <;> rfl

/-- **What a path leads to in an element is found from the document.** -/
theorem get?_inElement (harray : p.get? doc = some (.array items)) (hitem : items[k]? = some item)
    (q : Path) : (p.inElement k q).get? doc = q.get? item := by
  rw [get?, steps_inElement, Steps.get?_append]
  rw [get?] at harray
  rw [harray, Option.bind_some, Steps.get?_cons, Value.child?_index hitem]
  rfl

end Path

/-! ### Conditions -/

namespace Condition

variable {c : Condition} {p : Path} {f : Path → Path} {doc item : Value} {clock : Clock}

/-- The condition with other root paths.  The test of `anyElement` has none: its paths start from
the elements. -/
def mapRootPaths (f : Path → Path) : Condition → Condition
  | compare path op value => compare (f path) op value
  | present path negated => present (f path) negated
  | contains path value => contains (f path) value
  | oneOf path values => oneOf (f path) values
  | anyElement path test => anyElement (f path) test
  | and left right => and (left.mapRootPaths f) (right.mapRootPaths f)
  | or left right => or (left.mapRootPaths f) (right.mapRootPaths f)
  | not inner => not (inner.mapRootPaths f)
  | truthy path => truthy (f path)

/-- A condition on an element is the condition on the document in which each path leads to what it
leads to in the element.  Where the one leads nowhere, so does the other. -/
theorem holds_mapRootPaths (h : ∀ q : Path, (f q).get? doc = q.get? item) :
    (c.mapRootPaths f).holds clock doc = c.holds clock item := by
  induction c with
  | and left right ihleft ihright => rw [mapRootPaths, holds, holds, ihleft, ihright]
  | or left right ihleft ihright => rw [mapRootPaths, holds, holds, ihleft, ihright]
  | not inner ih => rw [mapRootPaths, holds, holds, ih]
  -- any other condition looks at the value of its one path
  | _ => simp only [mapRootPaths, holds, h]

/-- **A condition on some element is a condition on the document**: for an index of the array, it
holds with every root path led through the element at that index. -/
theorem holds_anyElement_iff (clock : Clock) (p : Path) (c : Condition) (doc : Value) :
    (anyElement p c).holds clock doc = true ↔
      ∃ items, p.get? doc = some (.array items) ∧
        ∃ k < items.length, (c.mapRootPaths (p.inElement k)).holds clock doc = true := by
  constructor
  · intro h
    rw [holds] at h
    split at h
    · rename_i items harray
      obtain ⟨item, hmem, hitem⟩ := List.any_eq_true.1 h
      obtain ⟨k, hlt, rfl⟩ := List.mem_iff_getElem.1 hmem
      refine ⟨items, harray, k, hlt, ?_⟩
      rw [holds_mapRootPaths (Path.get?_inElement harray (List.getElem?_eq_getElem hlt)), hitem]
    · cases h
  · rintro ⟨items, harray, k, hlt, hholds⟩
    rw [holds_mapRootPaths (Path.get?_inElement harray (List.getElem?_eq_getElem hlt))] at hholds
    simp only [holds, harray]
    exact List.any_eq_true.2 ⟨_, List.getElem_mem hlt, hholds⟩

/-- The array of a condition inside is addressed from the document, what is asked of its elements
is not. -/
example :
    let c : Condition := .and (.truthy ⟨[.current, .key "name"]⟩)
      (.not (.anyElement ⟨[.key "parts"]⟩ (.truthy ⟨[.current, .key "spare"]⟩)))
    c.mapRootPaths (Path.inElement ⟨[.key "items"]⟩ 2) =
      .and (.truthy ⟨[.key "items", .index 2, .key "name"]⟩)
        (.not (.anyElement ⟨[.key "items", .index 2, .key "parts"]⟩
          (.truthy ⟨[.current, .key "spare"]⟩))) :=
  rfl

end Condition

end MetadataRules
