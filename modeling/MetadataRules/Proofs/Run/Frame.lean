/-
MetadataRules/Proofs/Run/Frame.lean

What an operation does not change.

A path that parts at a key from every path of an operation leads to the same
value before and after it (`Operation.frame`).  A condition reads the document
along its root paths only — inside `anyElement` it reads elements — so it
holds after the operation when it held before, provided that its root paths
all part from the operation (`Condition.holds_eq_of_get?_eq`).
-/
import MetadataRules.Number.Fixed
import MetadataRules.Proofs.Run.Operation

namespace MetadataRules

namespace Condition

/-- The paths that a condition follows from the document itself. -/
def rootPaths : Condition → List Path
  | compare path _ _ => [path]
  | present path _ => [path]
  | contains path _ => [path]
  | oneOf path _ => [path]
  | anyElement path _ => [path]
  | and left right => left.rootPaths ++ right.rootPaths
  | or left right => left.rootPaths ++ right.rootPaths
  | not inner => inner.rootPaths
  | truthy path => [path]

variable {a b : Value}

/-- Documents that agree along the root paths of a condition are the same to it. -/
theorem holds_eq_of_get?_eq (clock : Clock) {c : Condition}
    (h : ∀ q ∈ c.rootPaths, q.get? a = q.get? b) : c.holds clock a = c.holds clock b := by
  induction c with
  | and left right ihl ihr =>
    rw [rootPaths, List.forall_mem_append] at h
    rw [holds, holds, ihl h.1, ihr h.2]
  | or left right ihl ihr =>
    rw [rootPaths, List.forall_mem_append] at h
    rw [holds, holds, ihl h.1, ihr h.2]
  | not inner ih => rw [holds, holds, ih h]
  -- any other condition looks at the value of its one path
  | _ =>
    have hget := h _ List.mem_cons_self
    simp only [holds, hget]

end Condition

/-- **An operation is not seen along a path that parts from all its paths at a key**,
whether it succeeds or fails, nor by a condition whose root paths are such paths. -/
theorem Operation.frame [Decimals] {text : String} {action : Action}
    (htext : Action.ofText text = .ok action) {op : Operation} (hop : op ∈ action.operations)
    (clock : Clock) (doc : Value) :
    (∀ q : Path, (∀ p ∈ op.places, p.Diverges q) →
      q.get? (op.apply clock doc).after = q.get? doc) ∧
    ∀ (c : Condition) (now : Clock), (∀ q ∈ c.rootPaths, ∀ p ∈ op.places, p.Diverges q) →
      c.holds now (op.apply clock doc).after = c.holds now doc := by
  have hwf : op.WellFormed := (Action.wellFormed_of_ofText htext).operations op hop
  have hframe : ∀ q : Path, (∀ p ∈ op.places, p.Diverges q) →
      q.get? (op.apply clock doc).after = q.get? doc := fun q hq =>
    (op.apply_touched hwf clock doc).get?_eq (fun p hp => hwf.current_notMem hp) hq
  refine ⟨hframe, fun c now hc => ?_⟩
  exact Condition.holds_eq_of_get?_eq now fun q hq => hframe q (hc q hq)

/-- A rename from one array into another is not seen in a third entry of their object. -/
theorem Operation.frame_rename :
    let clock : Clock := ⟨2024, 1, 1, 0, 0, 0, 0⟩
    let op : Operation := .rename ⟨[.key "a", .key "b", .index (-1), .key "c"]⟩
      ⟨[.key "a", .key "d", .key "e"]⟩
    let doc : Value := .object [("a", .object [("b", .array [.object [("c", .null)]]),
      ("x", .array [.boolean true])])]
    let q : Path := ⟨[.current, .key "a", .key "x"]⟩
    let c : Condition := .anyElement q (.truthy ⟨[.current]⟩)
    q.get? (op.apply clock doc).after = some (.array [.boolean true]) ∧
      c.holds clock (op.apply clock doc).after = true := by
  intro clock op doc q c
  have htext : Action.ofText "RENAME a.b.-1.c TO a.d.e" = .ok ⟨[op]⟩ := by decide +kernel
  have hframe := frame htext List.mem_cons_self clock doc
  have hdiverges : ∀ p ∈ op.places, p.Diverges q :=
    List.forall_mem_cons.2 ⟨.there _ (.here (by decide) _ _),
      List.forall_mem_cons.2 ⟨.there _ (.here (by decide) _ _), nofun⟩⟩
  exact ⟨hframe.1 q hdiverges, hframe.2 c clock (List.forall_mem_singleton.2 hdiverges)⟩

end MetadataRules
