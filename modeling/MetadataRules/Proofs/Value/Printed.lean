/-
MetadataRules/Proofs/Value/Printed.lean

The two texts of a value.

Arrays and objects are printed as a row of parts between brackets or braces, on
one line and over lines (`Value.compact_array_cons`, `Value.pretty_array_cons` and
the like).  The two texts of a part differ in spaces and line breaks outside of
string literals alone, and the literals are the strings and keys in the value
(`Value.spacedOut`); what holds of the parts holds of the row.
-/
import MetadataRules.Proofs.Number.Text
import MetadataRules.Proofs.Text.Literals
import MetadataRules.Proofs.Value.Parts
import MetadataRules.Value.Printer

namespace MetadataRules

/-! ### Numbers -/

/-- The characters of the plain text of a number. -/
theorem Number.mem_plainText {x : Number} {c : Char} (h : c ∈ x.plainText) :
    isDigit c = true ∨ c ∈ ['-', '.', 'N', 'a', 'i', 'n', 'f'] := by
  have hsigned {text : List Char} (h : c ∈ x.signed text) : c = '-' ∨ c ∈ text := by
    unfold signed at h
    split at h
    · exact List.mem_cons.1 h
    · exact .inr h
  unfold plainText at h
  split at h
  · unfold intDigits at h
    split at h
    · rcases List.mem_cons.1 h with rfl | h
      · exact .inr (by decide)
      · exact .inl (isDigit_of_mem_natDigits h)
    · exact .inl (isDigit_of_mem_natDigits h)
  split at h
  · have hwords : ['N', 'a', 'N'] ⊆ ['-', '.', 'N', 'a', 'i', 'n', 'f'] := by decide
    exact .inr (hwords h)
  split at h
  · have hwords : ['-', 'i', 'n', 'f'] ⊆ ['-', '.', 'N', 'a', 'i', 'n', 'f'] := by decide
    exact .inr (hwords (List.mem_cons.2 (hsigned h)))
  · have hdigits {c : Char} := (x.shortest .up).isDigit_of_mem_positional (c := c)
    rcases hsigned h with rfl | h
    · exact .inr (by decide)
    unfold Decimal.positional at h
    split at h
    · exact .inl (hdigits (List.mem_append_left _ h))
    · rcases List.mem_append.1 h with h | h
      · exact .inl (hdigits (List.mem_append_left _ h))
      · rcases List.mem_cons.1 h with rfl | h
        · exact .inr (by decide)
        · exact .inl (hdigits (List.mem_append_right _ h))

theorem Number.isPlain_of_mem_plainText {x : Number} {c : Char} (h : c ∈ x.plainText) :
    isPlain c = true := by
  rcases mem_plainText h with hdigit | hmem
  · by_contra hplain
    obtain rfl | rfl | rfl : c = '"' ∨ c = ' ' ∨ c = '\n' := by
      simpa [isPlain, Decidable.imp_iff_not_or, or_assoc] using hplain
    all_goals cases hdigit
  · have hall : ['-', '.', 'N', 'a', 'i', 'n', 'f'].all isPlain = true := by decide
    exact List.all_eq_true.1 hall c hmem

namespace Value

/-! ### Rows of parts -/

/-- An entry on one line. -/
def compactEntry (e : String × Value) : List Char := quoted e.1 ++ ':' :: e.2.layout.compact

theorem compact_array_cons (v : Value) (rest : List Value) :
    (array (v :: rest)).layout.compact =
      '[' :: ((v.layout.compact ++ rest.flatMap fun u => ',' :: u.layout.compact) ++ [']']) := by
  have hrest : Layout.compactItems (layoutItems rest) =
      rest.flatMap fun u => ',' :: u.layout.compact := by
    induction rest with
    | nil => rfl
    | cons u rest ih =>
      rw [layoutItems, Layout.compactItems, ih, List.flatMap_cons, List.cons_append]
  rw [layout, layoutItems, Layout.compact, hrest, List.append_assoc]

theorem compact_object_cons (e : String × Value) (rest : Fields Value) :
    (object (e :: rest)).layout.compact =
      '\x7b' :: ((compactEntry e ++ rest.flatMap fun f => ',' :: compactEntry f) ++ ['\x7d']) := by
  have hrest : Layout.compactEntries (layoutEntries rest) =
      rest.flatMap fun f => ',' :: compactEntry f := by
    induction rest with
    | nil => rfl
    | cons f rest ih =>
      rw [layoutEntries, Layout.compactEntries, ih, List.flatMap_cons, compactEntry]
      simp only [List.cons_append, List.append_assoc]
  rw [layout, layoutEntries, Layout.compact, hrest, compactEntry]
  simp only [List.cons_append, List.append_assoc]

/-- An element on a line of its own. -/
def prettyItem (depth : Nat) (v : Value) : List Char :=
  Layout.newLine depth ++ v.layout.pretty depth

/-- An entry on a line of its own. -/
def prettyEntry (depth : Nat) (e : String × Value) : List Char :=
  Layout.newLine depth ++ (quoted e.1 ++ ':' :: ' ' :: e.2.layout.pretty depth)

theorem pretty_array_cons (depth : Nat) (v : Value) (rest : List Value) :
    (array (v :: rest)).layout.pretty depth =
      '[' :: ((prettyItem (depth + 1) v ++ rest.flatMap fun u => ',' :: prettyItem (depth + 1) u) ++
        (Layout.newLine depth ++ [']'])) := by
  have hrest : Layout.prettyItems (depth + 1) (layoutItems rest) =
      rest.flatMap fun u => ',' :: prettyItem (depth + 1) u := by
    induction rest with
    | nil => rfl
    | cons u rest ih =>
      rw [layoutItems, Layout.prettyItems, ih, List.flatMap_cons, prettyItem]
      simp only [List.cons_append, List.append_assoc]
  rw [layout, layoutItems, Layout.pretty, hrest, prettyItem]
  simp only [List.append_assoc]

theorem pretty_object_cons (depth : Nat) (e : String × Value) (rest : Fields Value) :
    (object (e :: rest)).layout.pretty depth =
      '\x7b' :: ((prettyEntry (depth + 1) e ++
          rest.flatMap fun f => ',' :: prettyEntry (depth + 1) f) ++
        (Layout.newLine depth ++ ['\x7d'])) := by
  have hrest : Layout.prettyEntries (depth + 1) (layoutEntries rest) =
      rest.flatMap fun f => ',' :: prettyEntry (depth + 1) f := by
    induction rest with
    | nil => rfl
    | cons f rest ih =>
      rw [layoutEntries, Layout.prettyEntries, ih, List.flatMap_cons, prettyEntry]
      simp only [List.cons_append, List.append_assoc]
  rw [layout, layoutEntries, Layout.pretty, hrest, prettyEntry]
  simp only [List.cons_append, List.append_assoc]

/-! ### Strings -/

mutual

/-- The strings and keys in a value, in the order in which they are printed. -/
def strings : Value → List String
  | .string s => [s]
  | .array items => stringsOfItems items
  | .object fields => stringsOfEntries fields
  | _ => []

def stringsOfItems : List Value → List String
  | [] => []
  | v :: rest => strings v ++ stringsOfItems rest

def stringsOfEntries : List (String × Value) → List String
  | [] => []
  | (key, v) :: rest => key :: (strings v ++ stringsOfEntries rest)

end

theorem strings_array (items : List Value) : (array items).strings = items.flatMap strings := by
  rw [strings]
  induction items with
  | nil => rfl
  | cons v rest ih => rw [stringsOfItems, ih, List.flatMap_cons]

theorem strings_object (fields : Fields Value) :
    (object fields).strings = fields.flatMap fun e => e.1 :: e.2.strings := by
  rw [strings]
  induction fields with
  | nil => rfl
  | cons e rest ih => rw [stringsOfEntries, ih, List.flatMap_cons, List.cons_append]

/-! ### Layouts -/

/-- The rows of an array and of an object between their brackets. -/
theorem spacedOut_enclosed {left right : Char} (hleft : isPlain left = true)
    (hright : isPlain right = true)
    (depth : Nat) {loose tight : List Char} {strings : List String}
    (h : SpacedOut loose tight strings) :
    SpacedOut (left :: (loose ++ (Layout.newLine depth ++ [right]))) (left :: (tight ++ [right]))
      strings := by
  have hend := (SpacedOut.char hright).newLine depth
  have hrow := h.append hend
  rw [List.append_nil] at hrow
  exact hrow.cons hleft

/-- **A value is printed over lines as it is on one line, spaced out.** -/
theorem spacedOut (v : Value) (depth : Nat) :
    SpacedOut (v.layout.pretty depth) v.layout.compact v.strings := by
  induction v generalizing depth with
  | null => exact .plain rfl
  | boolean b => cases b <;> exact .plain rfl
  | number n => exact .plain (List.all_eq_true.2 fun c => Number.isPlain_of_mem_plainText)
  | string s => exact .literal s
  | array items ih =>
    rw [strings_array]
    rcases items with - | ⟨v, rest⟩
    · exact .plain rfl
    · rw [pretty_array_cons, compact_array_cons]
      refine spacedOut_enclosed rfl rfl depth ?_
      exact .separated fun u hu => (ih u hu (depth + 1)).newLine (depth + 1)
  | object fields ih =>
    rw [strings_object]
    rcases fields with - | ⟨e, rest⟩
    · exact .plain rfl
    · rw [pretty_object_cons, compact_object_cons]
      refine spacedOut_enclosed rfl rfl depth ?_
      refine .separated fun f hf => ?_
      have hvalue := ((ih f hf (depth + 1)).space (.inl rfl)).cons (c := ':') rfl
      exact ((SpacedOut.literal f.1).append hvalue).newLine (depth + 1)

/-- **The text over lines and the text on one line are the same up to layout.**  Without the spaces
and line breaks outside of string literals the first is the second, and in both the literals are
the strings and keys in the value, between quotes. -/
theorem withoutSpace_pretty (v : Value) :
    withoutSpace v.pretty = v.compact ∧
      literals v.pretty = v.strings.map quoted ∧ literals v.compact = v.strings.map quoted :=
  (spacedOut v 0).spec

/-- The space and the quote in the key are not layout. -/
example : withoutSpace (object [("a\" b", array [null, string ""])]).pretty =
    "\x7b\"a\\\" b\":[null,\"\"]\x7d" := by decide +kernel

end Value

end MetadataRules
