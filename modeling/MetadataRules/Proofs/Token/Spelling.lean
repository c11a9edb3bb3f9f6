/-
MetadataRules/Proofs/Token/Spelling.lean

Texts without white space between their tokens.

`Lexer.Begins text t more` says that the first lexeme of a text is the token `t`
and that `more` stands behind it; there is one lemma for each kind of lexeme,
which says where the lexeme ends: a sign by itself, a string at its closing
quote, a word and a number at the first character that they cannot go on with.
`Lexer.Scans text ts` says that the tokens of a text are `ts`, places apart.
A lexeme in front of a text is a token in front of its tokens, and nothing else
can be one (`Begins.scans_iff`), so a text that was put together from pieces is
taken apart into them.
-/
import MetadataRules.Proofs.Token.Blank

namespace MetadataRules

/-! ### Classes of characters -/

theorem inRanges_of_isDigit {c : Char} (h : isDigit c = true) :
    inRanges [(0x30, 0x39)] c = true := by
  simp only [isDigit, Bool.and_eq_true, decide_eq_true_eq, Char.le_def,
    UInt32.le_iff_toNat_le] at h
  simpa [inRanges] using h

theorem isNumeral_of_isDigit {c : Char} (h : isDigit c = true) : isNumeral c = true := by
  have hin := inRanges_of_isDigit h
  rw [inRanges, List.any_eq_true] at hin
  obtain ⟨r, hr, hin⟩ := hin
  obtain rfl := List.mem_singleton.1 hr
  exact List.any_eq_true.2 ⟨_, by decide, hin⟩

theorem isLetter_eq_false_of_isDigit {c : Char} (h : isDigit c = true) : isLetter c = false :=
  inRanges_eq_false_of_apart (by decide +kernel) (inRanges_of_isDigit h)

theorem isBlank_eq_false_of_isDigit {c : Char} (h : isDigit c = true) : isBlank c = false :=
  inRanges_eq_false_of_apart rfl (inRanges_of_isDigit h)

/-- Two characters differ where a test holds of one and not of the other. -/
theorem ne_of_class {c d : Char} (test : Char → Bool) (hc : test c = true) (hd : test d = false) :
    c ≠ d := by
  rintro rfl
  rw [hd] at hc
  cases hc

theorem isBlank_eq_false_of_startsWord {c : Char} (h : startsWord c = true) :
    isBlank c = false := by
  rw [Bool.eq_false_iff]
  intro hblank
  have hunderscore : c ≠ '_' := ne_of_class isBlank hblank (by decide)
  rw [startsWord, isLetter_eq_false_of_isBlank hblank, decide_eq_false hunderscore] at h
  cases h

theorem isDigit_eq_false_of_startsWord {c : Char} (h : startsWord c = true) :
    isDigit c = false := by
  rw [Bool.eq_false_iff]
  intro hdigit
  have hunderscore : c ≠ '_' := ne_of_class isDigit hdigit (by decide)
  rw [startsWord, isLetter_eq_false_of_isDigit hdigit, decide_eq_false hunderscore] at h
  cases h

/-- No word starts with another sign of ASCII than the low line. -/
theorem startsWord_eq_false_of_sign {c : Char}
    (h : inRanges [(0x21, 0x40), (0x5B, 0x5E), (0x7B, 0x7E)] c = true) : startsWord c = false := by
  have hletter : isLetter c = false := inRanges_eq_false_of_apart (by decide +kernel) h
  have hunderscore : c ≠ '_' := ne_of_class _ h (by decide)
  rw [startsWord, hletter, decide_eq_false hunderscore]
  rfl

/-- A class of characters without signs. -/
theorem ofSign?_eq_none {c : Char} (test : Char → Bool) (hc : test c = true)
    (h : ['[', ']', '\x7b', '\x7d', '(', ')', ',', '.', ':', '@'].all (!test ·) = true) :
    Token.ofSign? c = none := by
  have hsign : ∀ d ∈ ['[', ']', '\x7b', '\x7d', '(', ')', ',', '.', ':', '@'], c ≠ d := by
    intro d hd
    have hd : test d = false := by simpa using List.all_eq_true.1 h d hd
    exact ne_of_class test hc hd
  unfold Token.ofSign?
  split
  all_goals first
    | rfl
    | exact absurd rfl (hsign _ (by decide))

/-! ### Taking from the front -/

section Front

variable {test : Char → Bool} {cs more : List Char}

/-- A run of characters ends where a character fails the test, or at the end of the text. -/
theorem takeWhile_run (hcs : ∀ c ∈ cs, test c = true) (hmore : ∀ c ∈ more.head?, test c = false) :
    (cs ++ more).takeWhile test = cs := by
  rw [List.takeWhile_append_of_pos hcs]
  rcases more with - | ⟨c, more⟩
  · rw [List.takeWhile_nil, List.append_nil]
  · rw [List.takeWhile_cons_of_neg (by simpa using hmore), List.append_nil]

theorem dropWhile_run (hcs : ∀ c ∈ cs, test c = true) (hmore : ∀ c ∈ more.head?, test c = false) :
    (cs ++ more).dropWhile test = more := by
  rw [List.dropWhile_append_of_pos hcs]
  rcases more with - | ⟨c, more⟩
  · rfl
  · exact List.dropWhile_cons_of_neg (by simpa using hmore)

end Front

namespace Lexer

variable {afterDot negative : Bool} {text body whole fraction more : List Char} {t : Token}
  {w : List Token} {n : Number}

/-! ### Lexemes -/

/-- The first lexeme of a text is a token, and what stands behind it. -/
def Begins (afterDot : Bool) (text : List Char) (t : Token) (more : List Char) : Prop :=
  ∃ c cs, text = c :: cs ∧ isBlank c = false ∧
    ∀ offset, lexeme afterDot offset c cs = .ok (t, more)

/-- A text cannot go on with a word. -/
def IsApart (more : List Char) : Prop := ∀ c ∈ more.head?, continuesWord c = false

theorem IsApart.nil : IsApart [] := nofun

theorem IsApart.cons {c : Char} (h : continuesWord c = false) (cs : List Char) :
    IsApart (c :: cs) := by
  rintro d ⟨⟩
  exact h

theorem begins_sign {c : Char} (h : Token.ofSign? c = some t) (more : List Char) :
    Begins afterDot (c :: more) t more := by
  refine ⟨c, more, rfl, ?_, fun offset => ?_⟩
  · unfold Token.ofSign? at h
    split at h
    all_goals first
      | cases h
        done
      | decide
  · unfold lexeme
    rw [h]

/-- A word ends where it cannot go on. -/
theorem begins_word {c : Char} {cs : List Char} (hc : startsWord c = true)
    (hcs : ∀ d ∈ cs, continuesWord d = true) (hmore : IsApart more) :
    Begins afterDot (c :: (cs ++ more)) (.ofWord (String.ofList (c :: cs))) more := by
  refine ⟨c, cs ++ more, rfl, isBlank_eq_false_of_startsWord hc, fun offset => ?_⟩
  have hne : ∀ {d : Char}, inRanges [(0x21, 0x40), (0x5B, 0x5E), (0x7B, 0x7E)] d = true → c ≠ d :=
    fun hd => ne_of_class _ hc (startsWord_eq_false_of_sign hd)
  unfold lexeme
  rw [ofSign?_eq_none _ hc (by simp (disch := decide) [startsWord_eq_false_of_sign])]
  dsimp only
  rw [if_neg (hne rfl), if_neg (hne rfl), if_neg (hne rfl), if_neg (hne rfl), if_neg, if_neg,
    if_pos hc, takeWhile_run hcs hmore, dropWhile_run hcs hmore]
  · simp [isDigit_eq_false_of_startsWord hc, hne (d := '-') rfl]
  · simp [hne (d := '"') rfl, hne (d := '\'') rfl]

/-! ### Strings -/

/-- The place of a string only shows in its errors. -/
theorem stringBody_place {quote : Char} {start offset : Nat} {answer : List Char × List Char}
    (h : stringBody quote start offset text = .ok answer) (start' offset' : Nat) :
    stringBody quote start' offset' text = .ok answer := by
  obtain ⟨body, behind⟩ := answer
  have happend := stringBody_append h [] start' offset'
  rwa [List.append_nil, List.append_nil] at happend

/-- A text goes on with the rest of a string between double quotes, which stands for `body`. -/
def Closes (text body more : List Char) : Prop := stringBody '"' 0 0 text = .ok (body, more)

theorem closes_quote_iff : Closes ('"' :: text) body more ↔ body = [] ∧ more = text := by
  have heq : stringBody '"' 0 0 ('"' :: text) = .ok ([], text) := by
    rw [stringBody.eq_def]
    exact if_pos rfl
  rw [Closes, heq, Except.ok.injEq, Prod.mk.injEq, eq_comm, eq_comm (a := text)]

theorem closes_plain_iff {c : Char} (hquote : c ≠ '"') (hslash : c ≠ '\\') :
    Closes (c :: text) body more ↔ ∃ rest, body = c :: rest ∧ Closes text rest more := by
  rw [Closes, stringBody.eq_def]
  dsimp only
  rw [if_neg hquote, if_neg hslash]
  rcases h : stringBody '"' 0 (0 + 1) text with err | ⟨rest, behind⟩
  · refine iff_of_false (by rintro ⟨⟩) ?_
    rintro ⟨rest, -, hrest⟩
    rw [stringBody_place hrest 0 (0 + 1)] at h
    cases h
  · have hplace : Closes text rest behind := stringBody_place h 0 0
    constructor
    · intro heq
      obtain ⟨rfl, rfl⟩ := Prod.mk.inj (Except.ok.inj heq)
      exact ⟨rest, rfl, hplace⟩
    · rintro ⟨rest', rfl, hrest⟩
      obtain ⟨rfl, rfl⟩ := Prod.mk.inj (Except.ok.inj (hplace.symm.trans hrest))
      rfl

theorem closes_escape_iff {e : Char} :
    Closes ('\\' :: e :: text) body more ↔
      ∃ c rest, unescape? e = some c ∧ body = c :: rest ∧ Closes text rest more := by
  rw [Closes, stringBody.eq_def]
  dsimp only
  rw [if_neg (by decide), if_pos rfl]
  rcases hc : unescape? e with - | c
  · refine iff_of_false (by rintro ⟨⟩) ?_
    rintro ⟨c, rest, ⟨⟩, -⟩
  · dsimp only
    rcases h : stringBody '"' 0 (0 + 2) text with err | ⟨rest, behind⟩
    · refine iff_of_false (by rintro ⟨⟩) ?_
      rintro ⟨c, rest, -, -, hrest⟩
      rw [stringBody_place hrest 0 (0 + 2)] at h
      cases h
    · have hplace : Closes text rest behind := stringBody_place h 0 0
      constructor
      · intro heq
        obtain ⟨rfl, rfl⟩ := Prod.mk.inj (Except.ok.inj heq)
        exact ⟨c, rest, rfl, rfl, hplace⟩
      · rintro ⟨c', rest', ⟨⟩, rfl, hrest⟩
        obtain ⟨rfl, rfl⟩ := Prod.mk.inj (Except.ok.inj (hplace.symm.trans hrest))
        rfl

theorem lexeme_quote {quote : Char} (hquote : (quote = '"' || quote = '\'') = true)
    (afterDot : Bool) (offset : Nat) (text : List Char) :
    lexeme afterDot offset quote text =
      (stringBody quote offset (offset + 1) text).map fun (body, more) =>
        (.string (String.ofList body), more) := by
  let test (c : Char) : Bool := c = '"' || c = '\''
  have hne : ∀ {d : Char}, test d = false → quote ≠ d := ne_of_class test hquote
  unfold lexeme
  rw [ofSign?_eq_none test hquote (by decide)]
  dsimp only
  rw [if_neg (hne (by decide)), if_neg (hne (by decide)), if_neg (hne (by decide)),
    if_neg (hne (by decide)), if_pos hquote]
  cases stringBody quote offset (offset + 1) text <;> rfl

/-- A text that begins with a quote begins with a string. -/
theorem begins_quote_iff :
    Begins afterDot ('"' :: text) t more ↔
      ∃ body, Closes text body more ∧ t = .string (String.ofList body) := by
  constructor
  · rintro ⟨c, cs, heq, -, h⟩
    obtain ⟨rfl, rfl⟩ := List.cons.inj heq
    have hlexeme := h 0
    rw [lexeme_quote rfl] at hlexeme
    rcases hbody : stringBody '"' 0 (0 + 1) text with err | ⟨body, rest⟩
    · rw [hbody] at hlexeme
      cases hlexeme
    · rw [hbody] at hlexeme
      obtain ⟨rfl, rfl⟩ := Prod.mk.inj (Except.ok.inj hlexeme)
      exact ⟨body, stringBody_place hbody 0 0, rfl⟩
  · rintro ⟨body, hbody, rfl⟩
    refine ⟨'"', text, rfl, by decide, fun offset => ?_⟩
    rw [lexeme_quote rfl, stringBody_place hbody offset (offset + 1)]
    rfl

/-! ### Numbers -/

theorem continuesWord_of_isDigit {c : Char} (h : isDigit c = true) : continuesWord c = true := by
  rw [continuesWord, isAlphanumeric, isNumeral_of_isDigit h, Bool.or_true, Bool.true_or,
    Bool.true_or]

section Apart

variable (hmore : IsApart more)
include hmore

theorem IsApart.ne {d : Char} (hd : continuesWord d = true) : more.head? ≠ some d := by
  intro h
  have hfalse := hmore d h
  rw [hd] at hfalse
  cases hfalse

theorem IsApart.isDigit : ∀ c ∈ more.head?, isDigit c = false := by
  intro c hc
  rw [Bool.eq_false_iff]
  intro hdigit
  exact hmore.ne (continuesWord_of_isDigit hdigit) hc

theorem splitExponent_of_isApart : Number.splitExponent more = .ok (0, more) := by
  rcases more with - | ⟨c, more⟩
  · rfl
  · have hsmall : c ≠ 'e' := fun h => hmore.ne (by decide) (congrArg some h)
    have hlarge : c ≠ 'E' := fun h => hmore.ne (by decide) (congrArg some h)
    exact if_neg (not_or.2 ⟨hsmall, hlarge⟩)

theorem not_isAlphanumeric_head? :
    (more.head?.any fun c => isAlphanumeric c || c = '_') = false := by
  rcases more with - | ⟨c, more⟩
  · rfl
  · have hc : continuesWord c = false := hmore c rfl
    rw [continuesWord, Bool.or_eq_false_iff] at hc
    exact hc.1

/-- A number without a fraction: the text behind it has no point, or the number takes none. -/
theorem unsignedText_whole (hwhole : ∀ c ∈ whole, MetadataRules.isDigit c = true)
    (hpoint : afterDot = true ∨ more.head? ≠ some '.') :
    unsignedText afterDot negative (whole ++ more) =
      .ok (Number.ofDigits negative whole [] 0, more) := by
  have hfraction : (if afterDot then .ok ([], more) else fractionPart more) =
      Except.ok ([], more) := by
    cases afterDot with
    | true => rfl
    | false => exact fractionPart_of_ne_dot (hpoint.resolve_left Bool.false_ne_true)
  unfold unsignedText
  rw [takeWhile_run hwhole hmore.isDigit, dropWhile_run hwhole hmore.isDigit, hfraction]
  dsimp only
  rw [splitExponent_of_isApart hmore]
  dsimp only
  rw [not_isAlphanumeric_head? hmore]
  rfl

/-- A number with a fraction. -/
theorem unsignedText_fraction (hwhole : ∀ c ∈ whole, MetadataRules.isDigit c = true)
    (hdigits : ∀ c ∈ fraction, MetadataRules.isDigit c = true) (hne : fraction ≠ [])
    (hpoint : more.head? ≠ some '.') :
    unsignedText false negative (whole ++ '.' :: (fraction ++ more)) =
      .ok (Number.ofDigits negative whole fraction 0, more) := by
  have hdot : ∀ c ∈ ('.' :: (fraction ++ more)).head?, MetadataRules.isDigit c = false := by
    rintro c ⟨⟩
    decide
  have hfraction : fractionPart ('.' :: (fraction ++ more)) = .ok (fraction, more) := by
    obtain ⟨c, cs, rfl⟩ := List.exists_cons_of_ne_nil hne
    obtain ⟨hc, hcs⟩ := List.forall_mem_cons.1 hdigits
    rw [List.cons_append]
    simp only [fractionPart, hc, if_true, takeWhile_run hcs hmore.isDigit,
      dropWhile_run hcs hmore.isDigit]
    -- what follows the fraction is no second point
    rcases more with - | ⟨d, more⟩
    · rfl
    · have hd : d ≠ '.' := fun h => hpoint (congrArg some h)
      simp [hd]
  unfold unsignedText
  rw [takeWhile_run hwhole hdot, dropWhile_run hwhole hdot]
  rw [if_neg Bool.false_ne_true, hfraction]
  dsimp only
  rw [splitExponent_of_isApart hmore]
  dsimp only
  rw [not_isAlphanumeric_head? hmore]
  rfl

end Apart

theorem begins_number {c : Char} {cs : List Char}
    (hc : (isDigit c || (c = '-' && cs.head?.any isDigit)) = true)
    (h : numberText afterDot (c :: cs) = .ok (n, more)) :
    Begins afterDot (c :: cs) (.number n) more := by
  have hclass : (isDigit c || c = '-') = true := by
    rw [Bool.or_eq_true] at hc ⊢
    exact hc.imp_right fun h => (Bool.and_eq_true_iff.1 h).1
  have hblank : isBlank c = false := by
    rcases Bool.or_eq_true_iff.1 hclass with hdigit | hminus
    · exact isBlank_eq_false_of_isDigit hdigit
    · obtain rfl := of_decide_eq_true hminus
      decide
  refine ⟨c, cs, rfl, hblank, fun offset => ?_⟩
  let test (c : Char) : Bool := isDigit c || c = '-'
  have hne : ∀ {d : Char}, test d = false → c ≠ d := ne_of_class test hclass
  unfold lexeme
  rw [ofSign?_eq_none test hclass (by decide)]
  dsimp only
  rw [if_neg (hne (by decide)), if_neg (hne (by decide)), if_neg (hne (by decide)),
    if_neg (hne (by decide)), if_neg, if_pos hc, h]
  simp [hne (d := '"') (by decide), hne (d := '\'') (by decide)]

/-! ### Scans -/

/-- The tokens of a text, places apart. -/
def Scans (afterDot : Bool) (text : List Char) (w : List Token) : Prop :=
  ∃ scan, scanFrom 0 afterDot text = .ok scan ∧ scan.tokens.map Placed.token = w

theorem scans_nil : Scans afterDot [] w ↔ w = [] := by
  rw [Scans, scanFrom]
  constructor
  · rintro ⟨scan, h, rfl⟩
    rw [← Except.ok.inj h]
    rfl
  · rintro rfl
    exact ⟨⟨[], 0⟩, rfl, rfl⟩

/-- A text has the same tokens at any place. -/
theorem scans_iff_scanFrom (offset : Nat) :
    Scans afterDot text w ↔
      ∃ scan, scanFrom offset afterDot text = .ok scan ∧ scan.tokens.map Placed.token = w := by
  have hmoved := scanFrom_add 0 offset afterDot text
  rw [Nat.zero_add] at hmoved
  rw [Scans, hmoved]
  rcases scanFrom 0 afterDot text with err | scan
  · constructor <;> rintro ⟨_, ⟨⟩, -⟩
  · have htokens := map_token_moved offset scan.tokens
    constructor
    · rintro ⟨_, ⟨⟩, h⟩
      exact ⟨_, rfl, htokens.trans h⟩
    · rintro ⟨_, ⟨⟩, h⟩
      exact ⟨_, rfl, htokens.symm.trans h⟩

/-- **A lexeme in front of a text is a token in front of its tokens**, and a text that begins
with the lexeme has no other tokens. -/
theorem Begins.scans_iff (h : Begins afterDot text t more) :
    Scans afterDot text w ↔ ∃ v, w = t :: v ∧ Scans (t == .dot) more v := by
  obtain ⟨c, cs, rfl, hblank, hlexeme⟩ := h
  rw [Scans, scanFrom_lexeme (Bool.eq_false_iff.1 hblank) (hlexeme 0)]
  simp only [scans_iff_scanFrom (0 + 1 + (cs.length - more.length))]
  rcases scanFrom (0 + 1 + (cs.length - more.length)) (t == .dot) more with err | scan
  · constructor
    · rintro ⟨_, ⟨⟩, -⟩
    · rintro ⟨_, -, _, ⟨⟩, -⟩
  · constructor
    · rintro ⟨_, ⟨⟩, h⟩
      exact ⟨_, h.symm, scan, rfl, rfl⟩
    · rintro ⟨_, rfl, _, ⟨⟩, rfl⟩
      exact ⟨_, rfl, rfl⟩

/-- The first token of a text without white space in front is its first lexeme. -/
theorem Scans.begins {c : Char} {cs : List Char} (hc : isBlank c = false)
    (h : Scans afterDot (c :: cs) (t :: w)) :
    ∃ more, Begins afterDot (c :: cs) t more ∧ Scans (t == .dot) more w := by
  rcases hlexeme : lexeme afterDot 0 c cs with err | ⟨u, more⟩
  · obtain ⟨scan, hscan, -⟩ := h
    rw [scanFrom_of_lexeme_error (Bool.eq_false_iff.1 hc) hlexeme] at hscan
    cases hscan
  · have hbegins : Begins afterDot (c :: cs) u more := by
      refine ⟨c, cs, rfl, hc, fun offset => ?_⟩
      have hplace := lexeme_add afterDot 0 offset c cs
      rwa [Nat.zero_add, hlexeme] at hplace
    obtain ⟨v, heq, hmore⟩ := hbegins.scans_iff.1 h
    obtain ⟨rfl, rfl⟩ := List.cons.inj heq
    exact ⟨more, hbegins, hmore⟩

theorem Begins.scans (h : Begins afterDot text t more) (hmore : Scans (t == .dot) more w) :
    Scans afterDot text (t :: w) :=
  h.scans_iff.2 ⟨w, rfl, hmore⟩

end Lexer

end MetadataRules
