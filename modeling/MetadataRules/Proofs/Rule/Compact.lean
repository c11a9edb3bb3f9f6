/-
MetadataRules/Proofs/Rule/Compact.lean

Values that are printed and read again as literals.

What a value is printed as on one line is a literal of rule text
(`Literal.ofValue`), whatever encloses it.  A printed part is therefore looked at
together with what may stand behind it, which is a comma, a closing bracket or
brace, or nothing: `Writes phrase text a` says that the text, with any such text
behind it, begins with tokens that are the phrase `a`.  Numbers and words are the
parts that end only there; a string ends at its quote.

Hence the text of a value can be put where a literal is expected
(`Action.ofText_compact`), if its numbers are finite and its characters have
escapes in rule text.
-/
import MetadataRules.Proofs.Document.RoundTrip
import MetadataRules.Proofs.Rule.Embedded
import MetadataRules.Proofs.Rule.Numbers
import MetadataRules.Proofs.Token.Number
import MetadataRules.Proofs.Value.Printed

namespace MetadataRules

open Grammar

/-! ### Literals for values -/

namespace Literal

mutual

/-- The literal that a value is written as; the negative zero is printed as `0`. -/
def ofValue : Value → Literal
  | .null => .null
  | .boolean b => .boolean b
  | .number n => .number n.withoutNegativeZero
  | .string s => .string s
  | .array items => .array (ofItems items)
  | .object fields => .object (ofEntries fields)

def ofItems : List Value → List Literal
  | [] => []
  | v :: rest => ofValue v :: ofItems rest

def ofEntries : List (String × Value) → List (String × Literal)
  | [] => []
  | (key, v) :: rest => (key, ofValue v) :: ofEntries rest

end

theorem ofItems_eq_map (items : List Value) : ofItems items = items.map ofValue := by
  induction items with
  | nil => rfl
  | cons v rest ih => rw [ofItems, ih, List.map_cons]

theorem ofEntries_eq_map (fields : Fields Value) :
    ofEntries fields = fields.map fun e => (e.1, ofValue e.2) := by
  induction fields with
  | nil => rfl
  | cons e rest ih => rw [ofEntries, ih, List.map_cons]

/-- The literal resolves to the value, under any clock. -/
theorem convertsNumbers (clock : Clock) :
    Value.ConvertsNumbers (fun n => .number n.withoutNegativeZero)
      fun v => (ofValue v).resolve clock where
  null := by rw [ofValue, resolve]
  boolean b := by rw [ofValue, resolve]
  number n := by rw [ofValue, resolve]
  string s := by rw [ofValue, resolve]
  array items := by
    rw [ofValue, resolve, resolveItems_eq_map, ofItems_eq_map, List.map_map]
    rfl
  object fields := by
    rw [ofValue, resolve, resolvePairs_eq_map, ofEntries_eq_map, List.map_map]
    rfl

end Literal

namespace Grammar

theorem itemsOf_of_separatedOf {ts : List Token} {items : List Literal}
    (h : SeparatedOf LiteralOf ts items) : ItemsOf ts items := by
  induction h with
  | single h => exact .last h
  | cons h _ ih => exact .cons h ih

/-- A key and its value. -/
def EntryOf (ts : List Token) (e : String × Literal) : Prop :=
  ∃ us, LiteralOf us e.2 ∧ ts = .string e.1 :: .colon :: us

theorem pairsOf_of_separatedOf {ts : List Token} {pairs : List (String × Literal)}
    (h : SeparatedOf EntryOf ts pairs) : PairsOf ts pairs := by
  induction h with
  | single h =>
    obtain ⟨us, hof, rfl⟩ := h
    exact .last (.quoted _) hof
  | cons h _ ih =>
    obtain ⟨us, hof, rfl⟩ := h
    exact .cons (.quoted _) hof ih

end Grammar

/-! ### Strings -/

/-- No control character, or one that rule text has an escape for. -/
def isTextual (c : Char) : Bool := !isControl c || c = '\n' || c = '\r' || c = '\t'

/-- The characters of all strings and keys in the value are textual. -/
def Value.isTextual (v : Value) : Bool :=
  v.all fun
    | .string s => s.toList.all MetadataRules.isTextual
    | .object fields => (Fields.keys fields).all fun key => key.toList.all MetadataRules.isTextual
    | _ => true

theorem Value.isTextual_array_iff {items : List Value} :
    (array items).isTextual = true ↔ ∀ v ∈ items, v.isTextual = true := by
  rw [isTextual, all_array_iff]
  exact ⟨And.right, fun h => ⟨rfl, h⟩⟩

theorem Value.isTextual_object_iff {fields : Fields Value} :
    (object fields).isTextual = true ↔
      ∀ e ∈ fields, e.1.toList.all MetadataRules.isTextual = true ∧ e.2.isTextual = true := by
  rw [isTextual, all_object_iff, List.all_eq_true, Fields.keys, List.forall_mem_map]
  exact forall₂_and.symm

namespace Lexer

variable {afterDot : Bool} {text more rest : List Char} {c : Char} {t : Token} {w : List Token}

/-- A character that is printed is read as itself. -/
theorem closes_escapeChar (hc : isTextual c = true) (h : Closes text rest more) :
    Closes (escapeChar c ++ text) (c :: rest) more := by
  have hescape {e d : Char} (he : unescape? e = some d) (hd : c = d) :
      Closes ('\\' :: e :: text) (c :: rest) more :=
    closes_escape_iff.2 ⟨c, rest, hd ▸ he, rfl, h⟩
  unfold escapeChar
  split
  next hquote => exact hescape rfl hquote
  split
  next hslash => exact hescape rfl hslash
  split
  next hline => exact hescape rfl hline
  split
  next hreturn => exact hescape rfl hreturn
  split
  next htab => exact hescape rfl htab
  rename_i hquote hslash hline hreturn htab
  have hcontrol : ¬isControl c = true := by
    simpa [isTextual, hline, hreturn, htab] using hc
  rw [if_neg hcontrol]
  exact closes_plain_iff hquote hslash |>.2 ⟨rest, rfl, h⟩

theorem closes_escaped {cs : List Char} (hcs : cs.all isTextual = true) (more : List Char) :
    Closes (cs.flatMap escapeChar ++ '"' :: more) cs more := by
  induction cs with
  | nil => exact closes_quote_iff.2 ⟨rfl, rfl⟩
  | cons c cs ih =>
    obtain ⟨hc, hrest⟩ := Bool.and_eq_true_iff.1 hcs
    rw [List.flatMap_cons, List.append_assoc]
    exact closes_escapeChar hc (ih hrest)

/-- A string between quotes is a token of its own, whatever stands behind it. -/
theorem begins_quoted {s : String} (hs : s.toList.all isTextual = true) (more : List Char) :
    Begins afterDot (quoted s ++ more) (.string s) more := by
  have hbody := closes_escaped hs more
  rw [quoted, quoteWith, List.cons_append, List.append_assoc]
  exact begins_quote_iff.2 ⟨s.toList, hbody, by rw [String.ofList_toList]⟩

/-! ### Printed parts -/

/-- What stands behind a part of a printed value. -/
def MayFollow (more : List Char) : Prop := ∀ c ∈ more.head?, c = ',' ∨ c = ']' ∨ c = '\x7d'

theorem MayFollow.nil : MayFollow [] := nofun

theorem MayFollow.cons (h : c = ',' ∨ c = ']' ∨ c = '\x7d') (cs : List Char) :
    MayFollow (c :: cs) := by
  rintro d ⟨⟩
  exact h

theorem MayFollow.isApart (h : MayFollow more) : IsApart more := by
  intro c hc
  obtain rfl | rfl | rfl := h c hc <;> decide +kernel

theorem MayFollow.ne_dot (h : MayFollow more) : more.head? ≠ some '.' := by
  intro hdot
  obtain h | h | h := h '.' hdot <;> cases h

/-- With anything behind it that may follow, the text is read as tokens that are a phrase, and
what stands behind it is read as it is by itself. -/
def Writes {α : Type} (phrase : List Token → α → Prop) (text : List Char) (a : α) : Prop :=
  ∃ ts, phrase ts a ∧ ∀ more w, MayFollow more → Scans false more w →
    Scans false (text ++ more) (ts ++ w)

theorem scans_sign (hc : Token.ofSign? c = some t) (ht : (t == .dot) = false)
    (hmore : Scans false more w) : Scans afterDot (c :: more) (t :: w) :=
  (begins_sign hc more).scans (ht ▸ hmore)

/-- A literal of one token. -/
theorem writes_of_begins {l : Literal} (hof : LiteralOf [t] l) (ht : (t == .dot) = false)
    (h : ∀ more, MayFollow more → Begins false (text ++ more) t more) :
    Writes LiteralOf text l := by
  refine ⟨[t], hof, fun more w hmore hw => ?_⟩
  exact (h more hmore).scans (ht ▸ hw)

/-- A part between brackets or braces. -/
theorem Writes.enclose {α : Type} {phrase : List Token → α → Prop} {a : α} {t u : Token}
    (h : Writes phrase text a) (left right : Char) (hleft : Token.ofSign? left = some t)
    (hright : Token.ofSign? right = some u) (ht : (t == .dot) = false) (hu : (u == .dot) = false)
    (hclosed : right = ',' ∨ right = ']' ∨ right = '\x7d') :
    Writes (fun ts a => ∃ us, phrase us a ∧ ts = t :: us ++ [u])
      (left :: (text ++ [right])) a := by
  obtain ⟨us, hof, hscan⟩ := h
  refine ⟨t :: us ++ [u], ⟨us, hof, rfl⟩, fun more w _ hw => ?_⟩
  have hbody := hscan (right :: more) (u :: w) (.cons hclosed more) (scans_sign hright hu hw)
  have hall : Scans false (left :: (text ++ right :: more)) (t :: (us ++ u :: w)) :=
    scans_sign hleft ht hbody
  simpa using hall

theorem Writes.imp {α β : Type} {phrase : List Token → α → Prop} {phrase' : List Token → β → Prop}
    {a : α} {b : β} (h : Writes phrase text a) (himp : ∀ ts, phrase ts a → phrase' ts b) :
    Writes phrase' text b := by
  obtain ⟨ts, hof, hscan⟩ := h
  exact ⟨ts, himp ts hof, hscan⟩

/-- Parts with commas between them. -/
theorem writes_separated {α β : Type} {phrase : List Token → β → Prop} {write : α → List Char}
    {read : α → β} {a : α} {rest : List α}
    (h : ∀ b ∈ a :: rest, Writes phrase (write b) (read b)) :
    Writes (SeparatedOf phrase) (write a ++ rest.flatMap fun b => ',' :: write b)
      ((a :: rest).map read) := by
  induction rest generalizing a with
  | nil =>
    rw [List.flatMap_nil, List.append_nil]
    exact (h a List.mem_cons_self).imp fun _ hof => .single hof
  | cons b rest ih =>
    obtain ⟨ha, hrest⟩ := List.forall_mem_cons.1 h
    obtain ⟨ts, hof, hscan⟩ := ha
    obtain ⟨us, hofs, hscans⟩ := ih hrest
    refine ⟨ts ++ .comma :: us, .cons hof hofs, fun more w hmore hw => ?_⟩
    have hcomma : Scans false (',' :: _) (.comma :: _) :=
      scans_sign rfl rfl (hscans more w hmore hw)
    have hall := hscan _ _ (.cons (.inl rfl) _) hcomma
    simpa using hall

/-! ### Values -/

/-- The value is written as its literal. -/
def IsWritten (v : Value) : Prop := Writes LiteralOf v.layout.compact (.ofValue v)

theorem writes_word {c : Char} {cs : List Char} {l : Literal}
    (hof : LiteralOf [.ofWord (String.ofList (c :: cs))] l)
    (hdot : (Token.ofWord (String.ofList (c :: cs)) == .dot) = false) (hc : startsWord c = true)
    (hcs : cs.all continuesWord = true) : Writes LiteralOf (c :: cs) l :=
  writes_of_begins hof hdot fun _ hmore =>
    begins_word hc (List.all_eq_true.1 hcs) hmore.isApart

theorem isWritten_array {items : List Value} (h : ∀ v ∈ items, IsWritten v) :
    IsWritten (.array items) := by
  rw [IsWritten, Literal.ofValue, Literal.ofItems_eq_map]
  rcases items with - | ⟨v, rest⟩
  · have hbody : Writes ItemsOf [] [] := ⟨[], .nil, fun _ _ _ hw => hw⟩
    refine (hbody.enclose '[' ']' rfl rfl rfl rfl (.inr (.inl rfl))).imp ?_
    rintro ts ⟨us, hof, rfl⟩
    exact .list hof
  · have hbody := writes_separated h
    rw [Value.compact_array_cons]
    refine (hbody.enclose '[' ']' rfl rfl rfl rfl (.inr (.inl rfl))).imp ?_
    rintro ts ⟨us, hof, rfl⟩
    exact .list (itemsOf_of_separatedOf hof)

theorem writes_entry {key : String} {v : Value} (hkey : key.toList.all isTextual = true)
    (hv : IsWritten v) :
    Writes EntryOf (Value.compactEntry (key, v)) (key, .ofValue v) := by
  obtain ⟨us, hof, hscan⟩ := hv
  refine ⟨_, ⟨us, hof, rfl⟩, fun more w hmore hw => ?_⟩
  have hvalue : Scans false (':' :: _) (.colon :: _) := scans_sign rfl rfl (hscan more w hmore hw)
  simpa [Value.compactEntry] using (begins_quoted hkey _).scans hvalue

theorem isWritten_object {fields : Fields Value} (hnodup : (Fields.keys fields).Nodup)
    (h : ∀ e ∈ fields, e.1.toList.all isTextual = true ∧ IsWritten e.2) :
    IsWritten (.object fields) := by
  -- no key is repeated, so the pairs are the entries
  have hcollects : Fields.Collects (fields.map fun e => (e.1, Literal.ofValue e.2))
      (fields.map fun e => (e.1, Literal.ofValue e.2)) := by
    rw [Fields.collects_iff, Fields.ofPairs_eq_self]
    rw [Fields.keys, List.map_map]
    exact hnodup
  rw [IsWritten, Literal.ofValue, Literal.ofEntries_eq_map]
  rcases fields with - | ⟨e, rest⟩
  · have hbody : Writes PairsOf [] [] := ⟨[], .nil, fun _ _ _ hw => hw⟩
    refine (hbody.enclose '\x7b' '\x7d' rfl rfl rfl rfl (.inr (.inr rfl))).imp ?_
    rintro ts ⟨us, hof, rfl⟩
    exact .object hof hcollects
  · have hbody := writes_separated fun e he => writes_entry (h e he).1 (h e he).2
    rw [Value.compact_object_cons]
    refine (hbody.enclose '\x7b' '\x7d' rfl rfl rfl rfl (.inr (.inr rfl))).imp ?_
    rintro ts ⟨us, hof, rfl⟩
    exact .object (pairsOf_of_separatedOf hof) hcollects

/-- **Every value that can be written is written as its literal.** -/
theorem isWritten {v : Value} (hkeys : v.hasUniqueKeys = true) (hfinite : v.isFinite = true)
    (htextual : v.isTextual = true) : IsWritten v := by
  induction v with
  | null => exact writes_word .null rfl (by decide +kernel) (by decide +kernel)
  | boolean b =>
    cases b
    · exact writes_word (.boolean false) rfl (by decide +kernel) (by decide +kernel)
    · exact writes_word (.boolean true) rfl (by decide +kernel) (by decide +kernel)
  | number n =>
    refine writes_of_begins (.number _) rfl fun more hmore => ?_
    exact begins_plainText hfinite hmore.isApart hmore.ne_dot
  | string s =>
    exact writes_of_begins (.string s) rfl fun more _ => begins_quoted htextual more
  | array items ih =>
    rw [Value.hasUniqueKeys_array_iff] at hkeys
    rw [Value.isFinite, Value.allNumbers_array_iff] at hfinite
    rw [Value.isTextual_array_iff] at htextual
    exact isWritten_array fun v hv => ih v hv (hkeys v hv) (hfinite v hv) (htextual v hv)
  | object fields ih =>
    rw [Value.isFinite, Value.allNumbers_object_iff] at hfinite
    rw [Value.isTextual_object_iff] at htextual
    obtain ⟨hnodup, hvalues⟩ := Value.hasUniqueKeys_object_iff.1 hkeys
    refine isWritten_object hnodup fun e he => ⟨(htextual e he).1, ?_⟩
    exact ih e he (hvalues e he) (hfinite e he) (htextual e he).2

end Lexer

/-! ### Actions -/

/-- **What a value is printed as can be pasted back as a literal.**  The literal resolves to the
value, with the entries of all its objects in their order, though its zeros lose their sign. -/
theorem Action.ofText_compact {v : Value} (hkeys : v.hasUniqueKeys = true)
    (hfinite : v.isFinite = true) (htextual : v.isTextual = true) :
    Action.ofText ("SET x " ++ v.compact) = .ok ⟨[.set ⟨[.key "x"]⟩ (.ofValue v)]⟩ ∧
      ∀ clock,
        (Literal.ofValue v).resolve clock =
            v.mapNumbers (fun n => .number n.withoutNegativeZero) ∧
          ((Literal.ofValue v).resolve clock).equal v = true := by
  constructor
  · obtain ⟨ts, hof, hscan⟩ := Lexer.isWritten hkeys hfinite htextual
    have hvalue : Spells v.compact ts := by
      have hall := hscan [] [] .nil (Lexer.scans_nil.2 rfl)
      rw [List.append_nil, List.append_nil] at hall
      rwa [spells_iff_scans, Value.compact, String.toList_ofList]
    have hset : Spells "SET x" [.keyword .set, .identifier "x"] :=
      ⟨⟨[⟨_, 0⟩, ⟨_, 4⟩], 5⟩, by decide +kernel, rfl⟩
    have hspace : "SET x " = "SET x" ++ " " := by decide
    rw [hspace]
    refine ofText_of_spells (hset.append hvalue) ?_
    have hfield : FieldOf [.identifier "x"] ⟨[.key "x"]⟩ := ⟨.intro (.name "x") .nil, by decide⟩
    exact .fields .set (.single (.set hfield (.plain hof)))
  · intro clock
    have hresolve := (Literal.convertsNumbers clock).eq_mapNumbers hkeys
    have hnan : v.isNaNFree = true :=
      Value.allNumbers_mono (fun n hn => by rw [Number.isNaN_eq_false_of_isFinite hn]; rfl) hfinite
    refine ⟨hresolve, ?_⟩
    rw [hresolve]
    exact Value.mapNumbers_equal hnan hkeys

/-- Keys that look like keywords or hold spaces, a fraction, a negative zero and escapes. -/
theorem Action.ofText_compact_nested :
    let tenth : Number := ⟨0x3FB999999999999A⟩
    let v : Value := .object [("where", .array [.number tenth, .number (.ofMagnitude true 0)]),
      ("a b", .object [("null", .string "\"\n")])]
    let text := "\x7b\"where\":[0.1,0],\"a b\":\x7b\"null\":\"\\\"\\n\"\x7d\x7d"
    let literal : Literal := .object [("where", .array [.number tenth, .number .zero]),
      ("a b", .object [("null", .string "\"\n")])]
    (v.hasUniqueKeys = true ∧ v.isFinite = true ∧ v.isTextual = true) ∧
      Action.ofText ("SET x " ++ text) = .ok ⟨[.set ⟨[.key "x"]⟩ literal]⟩ ∧
      ∀ clock, (literal.resolve clock).equal v = true := by
  intro tenth v text literal
  have hkeys : v.hasUniqueKeys = true := by decide +kernel
  have hfinite : v.isFinite = true := by decide +kernel
  have htextual : v.isTextual = true := by decide +kernel
  have htext : v.compact = text := by decide +kernel
  have hliteral : Literal.ofValue v = literal := by decide +kernel
  obtain ⟨haction, hresolve⟩ := ofText_compact hkeys hfinite htextual
  rw [htext, hliteral] at haction
  rw [hliteral] at hresolve
  exact ⟨⟨hkeys, hfinite, htextual⟩, haction, fun clock => (hresolve clock).2⟩

end MetadataRules
