/-
MetadataRules/Proofs/Run/Root.lean

Runs keep a mapping a mapping.

The root of a document is an object.  A verb on a field has a path with at
least one step, and what changes below an object leaves it an object
(`Touched.kind_eq`).  Only a verb on the collection `@` has the root itself for
its target: there a merge makes an object, and any other verb wants an array
and leaves the object that it finds alone (`Run.kind_collection_root`).

So whatever rules run one after another, with failures in between, the document
remains one that can be read again (`Action.kind_of_reaches`).
-/
import MetadataRules.Document.Basic
import MetadataRules.Number.Fixed
import MetadataRules.Proofs.Run.Operation
import MetadataRules.Run.Action

namespace MetadataRules

namespace Value

variable {root new gone after : Value} {s : Segment}

theorem kind_eq_object_iff : root.kind = .object ↔ ∃ fields, root = .object fields := by
  cases root <;> simp [kind]

theorem kind_putChild (hs : s ≠ .current) (h : root.kind = .object) (new : Value) :
    (root.putChild s new).kind = .object := by
  obtain ⟨fields, rfl⟩ := kind_eq_object_iff.1 h
  cases s with
  | current => exact absurd rfl hs
  | _ => rfl

theorem kind_dropChild? (h : root.kind = .object) (hdrop : root.dropChild? s = some (gone, after)) :
    after.kind = .object := by
  obtain ⟨fields, rfl⟩ := kind_eq_object_iff.1 h
  simp only [dropChild?, Option.bind_eq_some_iff, Option.map_eq_some_iff, Prod.mk.injEq] at hdrop
  obtain ⟨key, -, v, -, -, rfl⟩ := hdrop
  rfl

end Value

/-! ### Below the root -/

namespace Steps

variable {root new gone after : Value} {steps : List Segment}

/-- A write below an object leaves an object, refused or not. -/
theorem kind_set (hne : steps ≠ []) (h : root.kind = .object) :
    (set (some root) steps new).value.kind = .object := by
  obtain ⟨fields, rfl⟩ := Value.kind_eq_object_iff.1 h
  rcases steps with - | ⟨s, rest⟩
  · exact absurd rfl hne
  · simp only [set, container]
    split <;> rfl

theorem kind_replace (hsteps : .current ∉ steps) (h : root.kind = .object)
    (hnew : steps = [] → new.kind = .object) : (replace root steps new).kind = .object := by
  rcases steps with - | ⟨s, rest⟩
  · exact hnew rfl
  · obtain ⟨hs, -⟩ := Segment.current_notMem_cons.1 hsteps
    rcases hchild : root.child? s with - | child
    · rw [replace, hchild]
      exact h
    · rw [replace_cons hchild]
      exact Value.kind_putChild hs h _

theorem kind_erase? (hsteps : .current ∉ steps) (h : root.kind = .object)
    (herase : erase? root steps = some (gone, after)) : after.kind = .object := by
  rcases steps with - | ⟨s, rest⟩
  · cases herase
  · obtain ⟨hs, -⟩ := Segment.current_notMem_cons.1 hsteps
    by_cases hrest : rest = []
    · subst hrest
      exact Value.kind_dropChild? h herase
    · obtain ⟨child, without, -, -, rfl⟩ := erase?_cons hrest herase
      exact Value.kind_putChild hs h _

end Steps

/-- Changes along paths that lead below the root leave an object an object. -/
theorem Touched.kind_eq {places : List Path} {doc after : Value} (h : Touched places doc after)
    (hsteps : ∀ p ∈ places, .current ∉ p.steps) (hne : ∀ p ∈ places, p.steps ≠ [])
    (hdoc : doc.kind = .object) : after.kind = .object := by
  induction h with
  | refl => exact hdoc
  | set _ hp new ih => exact Steps.kind_set (hne _ hp) ih
  | replace _ hp new ih => exact Steps.kind_replace (hsteps _ hp) ih fun h => absurd h (hne _ hp)
  | erase _ hp herase ih => exact Steps.kind_erase? (hsteps _ hp) ih herase
  | rename _ hsource _ hold _ _ ih =>
    -- the object that the key is renamed in may be the root itself
    have hcurrent := hsteps _ hsource
    rw [hold, List.mem_append, not_or] at hcurrent
    exact Steps.kind_replace hcurrent.1 ih fun _ => rfl

/-! ### At the root -/

namespace Run

variable {clock : Clock} {target : Path} {doc : Value}

theorem kind_merge_root (ht : target.steps = []) (l : Literal) (deep : Bool)
    (hdoc : doc.kind = .object) : (merge clock target l deep doc).after.kind = .object := by
  obtain ⟨fields, rfl⟩ := Value.kind_eq_object_iff.1 hdoc
  have hget : target.get? (.object fields) = some (.object fields) := by
    rw [Path.get?, ht]
    rfl
  simp only [merge, hget, Option.getD_some, Path.replace, ht, Steps.replace]
  split
  · generalize (if deep then Merge.deep fields _ else Merge.shallow fields _) = merged
    split <;> rfl
  · rfl

theorem kind_editArray_root (ht : target.steps = []) (filter : Option Condition) (verb : Verb)
    (hdoc : doc.kind = .object) :
    (editArray clock target filter verb doc).after.kind = .object := by
  obtain ⟨fields, rfl⟩ := Value.kind_eq_object_iff.1 hdoc
  have hget : target.get? (.object fields) = some (.object fields) := by
    rw [Path.get?, ht]
    rfl
  simp only [editArray, hget, Option.getD_some]
  rfl

/-- A verb on `@` merges an object into the root, or fails to find an array there. -/
theorem kind_collection_root (ht : target.steps = []) (filter : Option Condition) (verb : Verb)
    (hdoc : doc.kind = .object) :
    (collection clock target filter verb doc).after.kind = .object := by
  unfold collection
  split
  · exact hdoc
  · split
    · exact kind_merge_root ht _ _ hdoc
    · exact kind_editArray_root ht filter verb hdoc

end Run

/-! ### Operations and runs -/

/-- **An operation of rule text leaves an object an object**, whether it fails or not. -/
theorem Operation.kind_apply [Decimals] {op : Operation} (h : op.WellFormed) (clock : Clock)
    {doc : Value} (hdoc : doc.kind = .object) : (op.apply clock doc).after.kind = .object := by
  have hbelow : (∀ p ∈ op.places, p.steps ≠ []) → (op.apply clock doc).after.kind = .object :=
    fun hne => (op.apply_touched h clock doc).kind_eq (fun p hp => h.current_notMem hp) hne hdoc
  -- the path of a field has a step; the target of a collection may be the root
  cases hop : op.isOnFields with
  | true =>
    refine hbelow fun p hp hsteps => ?_
    have hcurrent := h.fields hop p hp
    rw [Path.isCurrent, hsteps] at hcurrent
    cases hcurrent
  | false =>
    cases op with
    | collection target filter verb =>
      by_cases ht : target.steps = []
      · exact Run.kind_collection_root ht filter verb hdoc
      · exact hbelow (List.forall_mem_singleton.2 ht)
    | _ => cases hop

theorem Run.kind_operations [Decimals] {ops : List Operation} (hops : ∀ op ∈ ops, op.WellFormed)
    (clock : Clock) {doc : Value} (hdoc : doc.kind = .object) :
    (operations clock ops doc).after.kind = .object := by
  induction ops generalizing doc with
  | nil => exact hdoc
  | cons op rest ih =>
    obtain ⟨hop, hrest⟩ := List.forall_mem_cons.1 hops
    have hfirst := Operation.kind_apply hop clock hdoc
    simp only [operations]
    split
    · exact hfirst
    · exact ih hrest hfirst

namespace Action

/-- The documents that rules lead to when they run one after another, each on what the run
before it left, under any clock and whether it fails or not. -/
inductive Reaches [Decimals] (doc : Value) : Value → Prop
  | refl : Reaches doc doc
  | run {mid : Value} {text : String} {action : Action} (h : Reaches doc mid)
      (htext : Action.ofText text = .ok action) (clock : Clock) :
      Reaches doc (action.run clock mid).newData

theorem Reaches.kind_eq [Decimals] {doc after : Value} (h : Reaches doc after)
    (hdoc : doc.kind = .object) :
    after.kind = .object := by
  induction h with
  | refl => exact hdoc
  | run _ htext clock ih =>
    exact Run.kind_operations (wellFormed_of_ofText htext).operations clock ih

end Action

/-! ### Documents -/

namespace Document

variable {codec : Yaml.Codec} {text : String} {tree : Yaml}

/-- The YAML tree that a text holds, in its front matter or as a whole. -/
def treeOf (codec : Yaml.Codec) (text : String) : Except Yaml.Fault Yaml :=
  match FrontMatter.split? text.toList with
  | some (front, _) => codec.read (String.ofList front)
  | none => codec.read text

theorem kind_of_metadata {data : Value} (h : metadata tree = .ok data) : data.kind = .object := by
  unfold metadata at h
  split at h
  · rw [← Except.ok.inj h]
    rfl
  · rw [← Except.ok.inj h]
    rfl
  · cases h

/-- What is read as a document has an object at its root. -/
theorem kind_of_ofText {document : Document} (h : ofText codec text = .ok document) :
    document.data.kind = .object := by
  have hread : ∀ {front : String} {body : Option String},
      (readMetadata codec front).map (Document.mk · body) = .ok document →
        document.data.kind = .object := by
    intro front body hmap
    unfold readMetadata at hmap
    split at hmap
    · rename_i tree htree
      rcases hmeta : metadata tree with e | data
      · rw [hmeta] at hmap
        cases hmap
      · rw [hmeta] at hmap
        rw [← Except.ok.inj hmap]
        exact kind_of_metadata hmeta
    · cases hmap
  unfold ofText at h
  split at h
  · exact hread h
  · exact hread h

/-- A text that holds a mapping is read as a document. -/
theorem exists_ofText_of_treeOf (h : treeOf codec text = .ok tree)
    (hkind : tree.toValue.kind = .object) :
    ∃ fields body, ofText codec text = .ok ⟨.object fields, body⟩ := by
  obtain ⟨fields, hfields⟩ := Value.kind_eq_object_iff.1 hkind
  have hread : ∀ front, codec.read front = .ok tree →
      readMetadata codec front = .ok (.object fields) := by
    intro front hfront
    rw [readMetadata, hfront]
    show metadata tree = _
    rw [metadata, hfields]
  cases hsplit : FrontMatter.split? text.toList with
  | none =>
    simp only [treeOf, hsplit] at h
    simp only [ofText, hsplit, hread _ h]
    exact ⟨fields, none, rfl⟩
  | some parts =>
    simp only [treeOf, hsplit] at h
    simp only [ofText, hsplit, hread _ h]
    exact ⟨fields, some (String.ofList parts.2), rfl⟩

end Document

namespace Yaml

theorem kind_toValue_ofNumber (n : Number) : (ofNumber n).toValue.kind = .number := by
  unfold ofNumber
  split <;> rfl

/-- The tree that a value is written as stands for a value of its kind. -/
theorem kind_toValue_ofValue (v : Value) : (ofValue v).toValue.kind = v.kind := by
  cases v with
  | number n =>
    rw [ofValue]
    exact kind_toValue_ofNumber n
  | _ => rfl

/-- The key of a mapping that has one key with nothing behind it. -/
def onlyKey? : Except Fault Yaml → Option String
  | .ok (.mapping [(.string key, .null)]) => some key
  | _ => none

theorem eq_ok_of_onlyKey? {read : Except Fault Yaml} {key : String} (h : onlyKey? read = some key) :
    read = .ok (.mapping [(.string key, .null)]) := by
  unfold onlyKey? at h
  split at h
  · rw [Option.some.inj h]
  · cases h

end Yaml

/-- **A document stays a mapping**: whatever rules run on it one after another, with whatever
failures, its root is an object.  So a document that was read can be read again whenever its
text holds the tree that it is written as. -/
theorem Action.object_of_reaches [Decimals] :
    (∀ (fields : Fields Value) (after : Value), Reaches (.object fields) after →
      ∃ fields', after = .object fields') ∧
    ∀ (codec : Yaml.Codec) (text : String) (document : Document),
      Document.ofText codec text = .ok document →
        ∀ after, Reaches document.data after → ∀ (codec' : Yaml.Codec) (text' : String),
          Document.treeOf codec' text' = .ok (.ofValue after) →
            ∃ fields body, Document.ofText codec' text' = .ok ⟨.object fields, body⟩ := by
  constructor
  · intro fields after h
    exact Value.kind_eq_object_iff.1 (h.kind_eq rfl)
  · intro codec text document htext after h codec' text' htree
    have hafter := h.kind_eq (Document.kind_of_ofText htext)
    refine Document.exists_ofText_of_treeOf htree ?_
    rw [Yaml.kind_toValue_ofValue, hafter]

/-- A rename through `@`, and a sort of the root, which fails. -/
theorem Action.object_of_reaches_rename :
    let clock : Clock := ⟨2024, 1, 1, 0, 0, 0, 0⟩
    let rename : Action := ⟨[.rename ⟨[.key "a"]⟩ ⟨[.current, .key "b"]⟩]⟩
    let sort : Action := ⟨[.collection ⟨[.current]⟩ none (.sort none .ascending)]⟩
    let doc : Value := .object [("a", .null)]
    let mid : Value := .object [("b", .null)]
    Document.ofText Yaml.codec "a: null\n" = .ok ⟨doc, none⟩ ∧
      (rename.run clock doc).newData = mid ∧ (sort.run clock mid).success = false ∧
      (∃ fields, (sort.run clock mid).newData = .object fields) ∧
      Document.treeOf Yaml.codec "b: null\n" = .ok (.ofValue mid) ∧
      ∃ fields body, Document.ofText Yaml.codec "b: null\n" = .ok ⟨.object fields, body⟩ := by
  intro clock rename sort doc mid
  have hdoc : Document.ofText Yaml.codec "a: null\n" = .ok ⟨doc, none⟩ := by
    have hread : Yaml.codec.read "a: null\n" = .ok (.ofValue doc) :=
      Yaml.eq_ok_of_onlyKey? (by decide +kernel)
    have hsplit : FrontMatter.split? "a: null\n".toList = none := by decide +kernel
    simp only [Document.ofText, hsplit, Document.readMetadata, hread]
    rfl
  have htree : Document.treeOf Yaml.codec "b: null\n" = .ok (.ofValue mid) :=
    Yaml.eq_ok_of_onlyKey? (by decide +kernel)
  have hrename : Action.ofText "RENAME a TO @.b" = .ok rename := by decide +kernel
  have hsort : Action.ofText "FOR @ SORT" = .ok sort := by decide +kernel
  have hmid : (rename.run clock doc).newData = mid := by rfl
  have hreaches : Reaches doc mid := by
    rw [← hmid]
    exact .run .refl hrename clock
  have hafter : Reaches doc (sort.run clock mid).newData := .run hreaches hsort clock
  have hfailure : (sort.run clock mid).success = false := by rfl
  exact ⟨hdoc, hmid, hfailure, object_of_reaches.1 _ _ hafter, htree,
    object_of_reaches.2 Yaml.codec _ _ hdoc mid hreaches Yaml.codec _ htree⟩

end MetadataRules
