/-
MetadataRules/Proofs/Run/Touched.lean

Documents that differ along some paths only.

`Touched places doc after` says that `after` came from `doc` by writes,
removals and renames along the given paths, in any number and order.  What such
a chain keeps is proved once, by induction on the chain (`Touched.get?_eq`),
and holds of every operation that is shown to be one.
-/
import MetadataRules.Proofs.Path.Divergence
import MetadataRules.Run.Operation

namespace MetadataRules

/-- The document `after` came from `doc` by changes along the given paths. -/
inductive Touched (places : List Path) (doc : Value) : Value → Prop
  | refl : Touched places doc doc
  | set {mid : Value} {p : Path} (h : Touched places doc mid) (hp : p ∈ places) (new : Value) :
      Touched places doc (p.set mid new).value
  | replace {mid : Value} {p : Path} (h : Touched places doc mid) (hp : p ∈ places)
      (new : Value) : Touched places doc (p.replace mid new)
  | erase {mid gone rest : Value} {p : Path} (h : Touched places doc mid) (hp : p ∈ places)
      (herase : p.erase? mid = some (gone, rest)) : Touched places doc rest
  | rename {mid : Value} {source target : Path} {parent : List Segment} {old new : String}
      {fields : Fields Value} (h : Touched places doc mid)
      (hsource : source ∈ places) (htarget : target ∈ places)
      (hold : source.steps = parent ++ [.key old]) (hnew : target.steps = parent ++ [.key new])
      (hparent : Steps.get? mid parent = some (.object fields)) :
      Touched places doc (Steps.replace mid parent (.object (Fields.rename fields old new)))

namespace Touched

variable {places : List Path} {doc after : Value}

/-- **What diverges from every path of a chain of changes is read as before.** -/
theorem get?_eq (h : Touched places doc after) (hsteps : ∀ p ∈ places, .current ∉ p.steps)
    {q : Path} (hq : ∀ p ∈ places, p.Diverges q) : q.get? after = q.get? doc := by
  induction h with
  | refl => rfl
  | set _ hp new ih =>
    rw [← ih]
    exact Steps.get?_set_of_diverge (hsteps _ hp) (hq _ hp)
  | replace _ hp new ih =>
    rw [← ih]
    exact Steps.get?_replace_of_diverge (hsteps _ hp) (hq _ hp)
  | erase _ hp herase ih =>
    rw [← ih]
    exact Steps.get?_erase_of_diverge (hsteps _ hp) (hq _ hp) herase
  | rename _ hsource htarget hold hnew hparent ih =>
    rw [← ih]
    have hfrom := hq _ hsource
    have hto := hq _ htarget
    have hcurrent := hsteps _ hsource
    rw [Path.Diverges, hold] at hfrom
    rw [Path.Diverges, hnew] at hto
    rw [hold, List.mem_append, not_or] at hcurrent
    exact Steps.get?_rename_of_diverge hcurrent.1 hparent hfrom hto

end Touched

end MetadataRules
