/-
MetadataRules/Proofs/Alike/Path.lean

Reading and changing values that are alike.

A path leads to alike places in alike values, and the same change at such a
place leaves alike values behind.  It is shown for one step first
(`Value.Alike.child?`, `Value.Alike.putChild`, `Value.Alike.dropChild?`) and
then, along the steps of a path, for the four ways of going down it
(`Steps.get?_alike`, `Steps.replace_alike`, `Steps.set_alike`,
`Steps.erase?_alike`).  No step is excluded, not even an `@` inside a path.
-/
import MetadataRules.Proofs.Alike.Value

namespace MetadataRules

/-! ### Lists of related elements -/

section Lists

variable {α β : Type} {R : α → β → Prop} {as : List α} {bs : List β} {a : α} {b : β}

/-- Two lists with related elements are the two halves of a list of pairs. -/
theorem exists_pairs_of_forall₂ (h : List.Forall₂ R as bs) :
    ∃ pairs : List (α × β), pairs.map Prod.fst = as ∧ pairs.map Prod.snd = bs ∧
      ∀ p ∈ pairs, R p.1 p.2 := by
  induction h with
  | nil => exact ⟨[], rfl, rfl, fun _ hp => absurd hp List.not_mem_nil⟩
  | @cons a b as bs hab _ ih =>
    obtain ⟨pairs, rfl, rfl, hpairs⟩ := ih
    exact ⟨(a, b) :: pairs, rfl, rfl, List.forall_mem_cons.2 ⟨hab, hpairs⟩⟩

theorem forall₂_of_pairs {pairs : List (α × β)} (h : ∀ p ∈ pairs, R p.1 p.2) :
    List.Forall₂ R (pairs.map Prod.fst) (pairs.map Prod.snd) := by
  rw [List.forall₂_map_left_iff, List.forall₂_map_right_iff, List.forall₂_same]
  exact h

theorem forall₂_getElem? (h : List.Forall₂ R as bs) (i : Nat) : Option.Rel R as[i]? bs[i]? := by
  induction h generalizing i with
  | nil => exact .none
  | cons hab _ ih =>
    cases i with
    | zero => exact .some hab
    | succ i => exact ih i

theorem forall₂_set (h : List.Forall₂ R as bs) (hab : R a b) (i : Nat) :
    List.Forall₂ R (as.set i a) (bs.set i b) := by
  obtain ⟨pairs, rfl, rfl, hpairs⟩ := exists_pairs_of_forall₂ h
  rw [← List.map_set (f := Prod.fst) (a := (a, b)), ← List.map_set (f := Prod.snd) (a := (a, b))]
  apply forall₂_of_pairs
  intro p hp
  rcases List.mem_or_eq_of_mem_set hp with hp | rfl
  · exact hpairs p hp
  · exact hab

theorem forall₂_eraseIdx (h : List.Forall₂ R as bs) (i : Nat) :
    List.Forall₂ R (as.eraseIdx i) (bs.eraseIdx i) := by
  rw [List.eraseIdx_eq_take_drop_succ, List.eraseIdx_eq_take_drop_succ]
  exact List.rel_append (List.forall₂_take i h) (List.forall₂_drop (i + 1) h)

end Lists

namespace Value

variable {same : Number → Number → Prop} {a b v w : Value} {as bs : Fields Value} {s : Segment}

namespace Alike

/-! ### Entries -/

theorem insert (h : Alike same (.object as) (.object bs)) (hvw : Alike same v w) (key : String) :
    Alike same (.object (Fields.insert as key v)) (.object (Fields.insert bs key w)) := by
  refine .object (Fields.nodup_keys_insert h.nodup_left key v)
    (Fields.nodup_keys_insert h.nodup_right key w) fun other => ?_
  by_cases hkey : other = key
  · subst hkey
    rw [Fields.get?_insert_self, Fields.get?_insert_self]
    exact .some hvw
  · rw [Fields.get?_insert_of_ne _ _ hkey, Fields.get?_insert_of_ne _ _ hkey]
    exact h.get? other

theorem erase (h : Alike same (.object as) (.object bs)) (key : String) :
    Alike same (.object (Fields.erase as key)) (.object (Fields.erase bs key)) := by
  refine .object (Fields.nodup_keys_erase h.nodup_left key)
    (Fields.nodup_keys_erase h.nodup_right key) fun other => ?_
  by_cases hkey : other = key
  · subst hkey
    rw [Fields.get?_erase_self h.nodup_left, Fields.get?_erase_self h.nodup_right]
    exact .none
  · rw [Fields.get?_erase_of_ne _ hkey, Fields.get?_erase_of_ne _ hkey]
    exact h.get? other

/-- A key that is called by a name that no other has. -/
theorem rename (h : Alike same (.object as) (.object bs)) (old : String) {new : String}
    (hnew : Fields.get? as new = none) :
    Alike same (.object (Fields.rename as old new)) (.object (Fields.rename bs old new)) := by
  have hnew' : Fields.get? bs new = none := (Fields.get?_eq_none_iff_of_rel h.get?).1 hnew
  refine .object (Fields.nodup_keys_rename h.nodup_left hnew)
    (Fields.nodup_keys_rename h.nodup_right hnew') fun other => ?_
  by_cases hother : other = new
  · subst hother
    rw [Fields.get?_rename_new hnew, Fields.get?_rename_new hnew']
    exact h.get? old
  · by_cases hold : other = old
    · subst hold
      rw [Fields.get?_rename_old h.nodup_left hother, Fields.get?_rename_old h.nodup_right hother]
      exact .none
    · rw [Fields.get?_rename_of_ne _ hold hother, Fields.get?_rename_of_ne _ hold hother]
      exact h.get? other

/-! ### One step -/

theorem accepts_eq (h : Alike same a b) (s : Segment) : a.accepts s = b.accepts s := by
  cases h with
  | array h =>
    cases s with
    | index i => simp only [accepts, h.length_eq]
    | _ => rfl
  | _ => rfl

/-- Two containers with a place for a segment are two objects with a key for it, or two
arrays that both have the position. -/
theorem cases_of_accepts (h : Alike same a b) (hs : a.accepts s = true) :
    (∃ as bs key, a = .object as ∧ b = .object bs ∧ s.key? = some key) ∨
      ∃ as bs i pos, a = .array as ∧ b = .array bs ∧ s = .index i ∧
        position? i as.length = some pos ∧ position? i bs.length = some pos := by
  rcases accepts_iff.1 hs with ⟨fields, key, rfl, hkey⟩ | ⟨items, i, pos, rfl, rfl, hpos⟩
  · cases h with
    | object => exact .inl ⟨_, _, key, rfl, rfl, hkey⟩
  · cases h with
    | array h => exact .inr ⟨_, _, i, pos, rfl, rfl, rfl, hpos, h.length_eq ▸ hpos⟩

theorem child? (h : Alike same a b) (s : Segment) :
    Option.Rel (Alike same) (a.child? s) (b.child? s) := by
  by_cases hs : s = .current
  · subst hs
    have hself : ∀ v : Value, v.child? .current = some v := fun v => by simp [Value.child?]
    rw [hself, hself]
    exact .some h
  · cases hacc : a.accepts s with
    | false =>
      have hnone : ∀ v : Value, v.accepts s = false → v.child? s = none := by
        intro v hv
        cases hchild : v.child? s with
        | none => rfl
        | some child => rw [accepts_of_child? hs hchild] at hv; cases hv
      rw [hnone a hacc, hnone b (h.accepts_eq s ▸ hacc)]
      exact .none
    | true =>
      rcases h.cases_of_accepts hacc with
        ⟨as, bs, key, rfl, rfl, hkey⟩ | ⟨as, bs, i, pos, rfl, rfl, rfl, hpos, hpos'⟩
      · rw [child?_object hkey, child?_object hkey]
        exact h.get? key
      · rw [child?_array hpos, child?_array hpos']
        exact forall₂_getElem? h.array_inj pos

theorem putChild (h : Alike same a b) (hvw : Alike same v w) (hs : a.accepts s = true) :
    Alike same (a.putChild s v) (b.putChild s w) := by
  rcases h.cases_of_accepts hs with
    ⟨as, bs, key, rfl, rfl, hkey⟩ | ⟨as, bs, i, pos, rfl, rfl, rfl, hpos, hpos'⟩
  · rw [putChild_object hkey, putChild_object hkey]
    exact h.insert hvw key
  · rw [putChild_array hpos, putChild_array hpos']
    exact .array (forall₂_set h.array_inj hvw pos)

theorem dropChild? (h : Alike same a b) (s : Segment) :
    Option.Rel (fun x y => Alike same x.1 y.1 ∧ Alike same x.2 y.2) (a.dropChild? s)
      (b.dropChild? s) := by
  cases hacc : a.accepts s with
  | false =>
    have hnone : ∀ v : Value, v.accepts s = false → v.dropChild? s = none := by
      intro v hv
      cases v <;> cases s <;> simp_all [Value.dropChild?, accepts]
    rw [hnone a hacc, hnone b (h.accepts_eq s ▸ hacc)]
    exact .none
  | true =>
    rcases h.cases_of_accepts hacc with
      ⟨as, bs, key, rfl, rfl, hkey⟩ | ⟨as, bs, i, pos, rfl, rfl, rfl, hpos, hpos'⟩
    · simp only [Value.dropChild?, hkey, Option.bind_some]
      rcases optionRel_iff.1 (h.get? key) with ⟨ha, hb⟩ | ⟨v, w, ha, hb, hvw⟩ <;> rw [ha, hb]
      · exact .none
      · exact .some ⟨hvw, h.erase key⟩
    · simp only [Value.dropChild?, hpos, hpos', Option.bind_some]
      rcases optionRel_iff.1 (forall₂_getElem? h.array_inj pos) with
        ⟨ha, hb⟩ | ⟨v, w, ha, hb, hvw⟩ <;> rw [ha, hb]
      · exact .none
      · exact .some ⟨hvw, .array (forall₂_eraseIdx h.array_inj pos)⟩

end Alike

end Value

/-! ### Along the steps of a path -/

theorem isOk_mapError {ε ε' α : Type} (f : ε → ε') (x : Except ε α) :
    (x.mapError f).isOk = x.isOk := by
  cases x <;> rfl

/-- Two writes that leave alike values behind, and are both accepted or both refused. -/
structure Written.Alike (same : Number → Number → Prop) (w w' : Written) : Prop where
  value : Value.Alike same w.value w'.value
  isOk : w.answer.isOk = w'.answer.isOk

namespace Steps

open Value (Alike)

variable {same : Number → Number → Prop} {a b v w : Value} {old old' : Option Value}

theorem get?_alike (h : Alike same a b) (steps : List Segment) :
    Option.Rel (Alike same) (get? a steps) (get? b steps) := by
  induction steps generalizing a b with
  | nil => exact .some h
  | cons s rest ih =>
    rw [get?_cons, get?_cons]
    rcases optionRel_iff.1 (h.child? s) with ⟨ha, hb⟩ | ⟨x, y, ha, hb, hxy⟩ <;> rw [ha, hb]
    · exact .none
    · exact ih hxy

theorem replace_alike (h : Alike same a b) (hvw : Alike same v w) (steps : List Segment) :
    Alike same (replace a steps v) (replace b steps w) := by
  induction steps generalizing a b with
  | nil => exact hvw
  | cons s rest ih =>
    rw [replace, replace]
    rcases optionRel_iff.1 (h.child? s) with ⟨ha, hb⟩ | ⟨x, y, ha, hb, hxy⟩ <;> rw [ha, hb]
    · exact h
    · have hbelow := ih hxy
      by_cases hs : s = .current
      · subst hs
        simpa [Value.putChild] using hbelow
      · exact h.putChild hbelow (Value.accepts_of_child? hs ha)

theorem container_alike (h : Option.Rel (Alike same) old old') :
    Alike same (container old) (container old') := by
  have hempty : Alike same (.object []) (.object []) :=
    .object List.nodup_nil List.nodup_nil fun _ => .none
  cases h with
  | none => exact hempty
  | some h =>
    cases h with
    | null => exact hempty
    | boolean b => exact .boolean b
    | number h => exact .number h
    | string s => exact .string s
    | array h => exact .array h
    | object hleft hright h => exact .object hleft hright h

theorem set_alike (h : Option.Rel (Alike same) old old') (hvw : Alike same v w)
    (steps : List Segment) : (set old steps v).Alike same (set old' steps w) := by
  induction steps generalizing old old' with
  | nil => exact ⟨hvw, rfl⟩
  | cons s rest ih =>
    have hc := container_alike h
    cases hacc : (container old).accepts s with
    | false =>
      obtain ⟨r, hset⟩ := set_cons_of_not_accepts rest v hacc
      obtain ⟨r', hset'⟩ := set_cons_of_not_accepts rest w (hc.accepts_eq s ▸ hacc)
      rw [hset, hset']
      exact ⟨hc, rfl⟩
    | true =>
      obtain ⟨hvalue, hok⟩ := ih (hc.child? s)
      rw [set_cons_of_accepts hacc, set_cons_of_accepts (hc.accepts_eq s ▸ hacc)]
      exact ⟨hc.putChild hvalue hacc, by rw [isOk_mapError, isOk_mapError, hok]⟩

theorem erase?_alike (h : Alike same a b) (steps : List Segment) :
    Option.Rel (fun x y => Alike same x.1 y.1 ∧ Alike same x.2 y.2) (erase? a steps)
      (erase? b steps) := by
  induction steps generalizing a b with
  | nil => exact .none
  | cons s rest ih =>
    by_cases hrest : rest = []
    · subst hrest
      exact h.dropChild? s
    · rw [erase?_cons_of_ne_nil hrest, erase?_cons_of_ne_nil hrest]
      rcases optionRel_iff.1 (h.child? s) with ⟨ha, hb⟩ | ⟨x, y, ha, hb, hxy⟩ <;> rw [ha, hb]
      · exact .none
      rw [Option.bind_some, Option.bind_some]
      rcases optionRel_iff.1 (ih hxy) with ⟨hx, hy⟩ | ⟨x', y', hx, hy, hgone, hafter⟩ <;>
        rw [hx, hy]
      · exact .none
      · refine .some ⟨hgone, ?_⟩
        by_cases hs : s = .current
        · subst hs
          simpa [Value.putChild] using hafter
        · exact h.putChild hafter (Value.accepts_of_child? hs ha)

end Steps

end MetadataRules
