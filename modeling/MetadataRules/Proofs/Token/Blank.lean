/-
MetadataRules/Proofs/Token/Blank.lean

Texts with white space between them.

White space ends every lexeme and is part of none but a quoted string, which
shows its own end.  So a lexeme that was read off a text is read off a longer
text too, if the text goes on with white space (`Lexer.lexeme_append`), and
what follows the white space is scanned as if it stood alone, only further on
(`Lexer.scanFrom_append`, `Lexer.scanFrom_add`).  Together: two texts with white
space between them are read apart, with the tokens of the one and then what the
other by itself gives, tokens or an error (`Lexer.scanFrom_append_blanks`).
-/
import Mathlib.Data.List.TakeWhile
import MetadataRules.Token.Lexer

namespace MetadataRules

/-! ### White space -/

/-- No range of the one list meets a range of the other one. -/
def areApart (rs ss : List (Nat × Nat)) : Bool :=
  rs.all fun r => ss.all fun s => r.2.blt s.1 || s.2.blt r.1

/-- A character of some ranges is in none of the ranges that lie apart from them. -/
theorem inRanges_eq_false_of_apart {rs ss : List (Nat × Nat)} {c : Char}
    (h : areApart rs ss = true) (hc : inRanges rs c = true) : inRanges ss c = false := by
  rw [inRanges, List.any_eq_true] at hc
  obtain ⟨r, hr, hin⟩ := hc
  rw [inRanges, List.any_eq_false]
  intro s hs hin'
  have hapart := List.all_eq_true.1 (List.all_eq_true.1 h r hr) s hs
  simp only [Bool.or_eq_true, Nat.blt_eq] at hapart
  simp only [Bool.and_eq_true, decide_eq_true_eq] at hin hin'
  omega

section Blank

variable {w : Char} (hw : isBlank w = true)
include hw

theorem isLetter_eq_false_of_isBlank : isLetter w = false :=
  inRanges_eq_false_of_apart (by decide +kernel) hw

theorem isNumeral_eq_false_of_isBlank : isNumeral w = false :=
  inRanges_eq_false_of_apart (by decide +kernel) hw

/-- White space is neither a letter nor a number. -/
theorem isAlphanumeric_eq_false_of_isBlank : isAlphanumeric w = false := by
  rw [isAlphanumeric, isLetter_eq_false_of_isBlank hw, isNumeral_eq_false_of_isBlank hw]
  rfl

theorem isDigit_eq_false_of_isBlank : isDigit w = false := by
  have hapart : inRanges [(0x30, 0x39)] w = false := inRanges_eq_false_of_apart rfl hw
  rw [Bool.eq_false_iff]
  intro hdigit
  simp only [isDigit, Bool.and_eq_true, decide_eq_true_eq, Char.le_def,
    UInt32.le_iff_toNat_le] at hdigit
  have hin : inRanges [(0x30, 0x39)] w = true := by
    simpa [inRanges] using hdigit
  rw [hapart] at hin
  cases hin

/-- A character that is no white space is not the white space at hand. -/
theorem ne_of_isBlank {c : Char} (hc : isBlank c = false) : w ≠ c := by
  rintro rfl
  rw [hw] at hc
  cases hc

theorem continuesWord_eq_false_of_isBlank : continuesWord w = false := by
  have hunderscore : w ≠ '_' := ne_of_isBlank hw (by decide)
  have hdash : w ≠ '-' := ne_of_isBlank hw (by decide)
  simp [continuesWord, isAlphanumeric_eq_false_of_isBlank hw, hunderscore, hdash]

end Blank

/-! ### Taking from the front -/

/-- What is taken while a test holds ends at a character that fails the test. -/
theorem takeWhile_append_of_eq_false {test : Char → Bool} {w : Char} (hw : test w = false)
    (cs more : List Char) : (cs ++ w :: more).takeWhile test = cs.takeWhile test := by
  induction cs with
  | nil => simp [hw]
  | cons c cs ih => by_cases hc : test c = true <;> simp [hc, ih]

theorem dropWhile_append_of_eq_false {test : Char → Bool} {w : Char} (hw : test w = false)
    (cs more : List Char) :
    (cs ++ w :: more).dropWhile test = cs.dropWhile test ++ w :: more := by
  induction cs with
  | nil => simp [hw]
  | cons c cs ih => by_cases hc : test c = true <;> simp [hc, ih]

namespace Lexer

variable {w : Char} {more cs rest : List Char} {afterDot : Bool} {offset : Nat}

/-! ### Lexemes -/

/-- A quoted string shows its own end, whatever follows it. -/
theorem stringBody_append {quote : Char} {start : Nat} {body behind : List Char}
    (h : stringBody quote start offset cs = .ok (body, behind)) (tail : List Char)
    (start' offset' : Nat) :
    stringBody quote start' offset' (cs ++ tail) = .ok (body, behind ++ tail) := by
  fun_induction stringBody quote start offset cs generalizing body behind offset' with
  | case1 => cases h
  | case2 offset cs =>
    obtain ⟨rfl, rfl⟩ := Prod.mk.inj (Except.ok.inj h)
    rw [List.cons_append, stringBody.eq_def]
    exact if_pos rfl
  | case3 => cases h
  | case4 => cases h
  | case5 => cases h
  | case6 offset e cs x hx body' behind' heq hq ih =>
    obtain ⟨rfl, rfl⟩ := Prod.mk.inj (Except.ok.inj h)
    rw [List.cons_append, List.cons_append, stringBody.eq_def]
    simp [hq, hx, ih heq]
  | case7 => cases h
  | case8 offset c cs hc hb body' behind' heq ih =>
    obtain ⟨rfl, rfl⟩ := Prod.mk.inj (Except.ok.inj h)
    rw [List.cons_append, stringBody.eq_def]
    simp [hc, hb, ih heq]

/-- Without a dot there is no fraction. -/
theorem fractionPart_of_ne_dot (h : cs.head? ≠ some '.') : fractionPart cs = .ok ([], cs) := by
  unfold fractionPart
  split
  · exact absurd rfl h
  · exact absurd rfl h
  · rfl

/-- A sign is the first character of a text, if it has one. -/
theorem splitSign_append (h : cs ≠ []) (tail : List Char) :
    splitSign (cs ++ tail) = ((splitSign cs).1, (splitSign cs).2 ++ tail) := by
  obtain ⟨c, cs, rfl⟩ := List.exists_cons_of_ne_nil h
  by_cases hminus : c = '-'
  · subst hminus
    rfl
  · by_cases hplus : c = '+'
    · subst hplus
      rfl
    · simp [splitSign, hminus, hplus]

/-- A number behind its sign, and the text behind the number. -/
def unsignedText (afterDot negative : Bool) (cs : List Char) :
    Except (List Char) (Number × List Char) :=
  match if afterDot then .ok ([], cs.dropWhile isDigit)
      else fractionPart (cs.dropWhile isDigit) with
  | .error fault => .error fault
  | .ok (fraction, behindFraction) =>
    match Number.splitExponent behindFraction with
    | .error fault => .error fault
    | .ok (exponent, behind) =>
      if behind.head?.any fun c => isAlphanumeric c || c = '_' then .error behind
      else .ok (Number.ofDigits negative (cs.takeWhile isDigit) fraction exponent, behind)

theorem numberText_minus (cs : List Char) :
    numberText afterDot ('-' :: cs) = unsignedText afterDot true cs := rfl

theorem numberText_of_ne_minus (h : cs.head? ≠ some '-') :
    numberText afterDot cs = unsignedText afterDot false cs := by
  rcases cs with - | ⟨c, cs⟩
  · rfl
  · have hc : c ≠ '-' := fun heq => h (congrArg some heq)
    simp [numberText, hc]
    rfl

theorem scanFrom_blank {w : Char} (hw : isBlank w = true) (offset : Nat) (afterDot : Bool)
    (cs : List Char) :
    scanFrom offset afterDot (w :: cs) = scanFrom (offset + 1) false cs := by
  rw [scanFrom, if_pos hw]

/-- A scan goes on behind a lexeme. -/
theorem scanFrom_lexeme {c : Char} {t : Token} (hc : ¬isBlank c = true)
    (h : lexeme afterDot offset c cs = .ok (t, rest)) :
    scanFrom offset afterDot (c :: cs) =
      (scanFrom (offset + 1 + (cs.length - rest.length)) (t == .dot) rest).map
        (Scan.behind [⟨t, offset⟩]) := by
  rw [scanFrom, if_neg hc]
  split
  · rename_i h'
    rw [h] at h'
    cases h'
  · rename_i h'
    rw [h] at h'
    obtain ⟨rfl, rfl⟩ := Prod.mk.inj (Except.ok.inj h')
    cases scanFrom (offset + 1 + (cs.length - rest.length)) (t == .dot) rest <;> rfl

theorem scanFrom_of_lexeme_error {c : Char} {err : LexError} (hc : ¬isBlank c = true)
    (h : lexeme afterDot offset c cs = .error err) :
    scanFrom offset afterDot (c :: cs) = .error err := by
  rw [scanFrom, if_neg hc]
  split
  · rename_i h'
    rw [h] at h'
    exact congrArg Except.error (Except.error.inj h').symm
  · rename_i h'
    rw [h] at h'
    cases h'

section Blank

variable (hw : isBlank w = true)
include hw

theorem fractionPart_append {fraction : List Char} (h : fractionPart cs = .ok (fraction, rest)) :
    fractionPart (cs ++ w :: more) = .ok (fraction, rest ++ w :: more) := by
  have hdigit := isDigit_eq_false_of_isBlank hw
  have hdot : w ≠ '.' := ne_of_isBlank hw (by decide)
  by_cases hhead : cs.head? = some '.'
  · obtain ⟨cs, rfl⟩ : ∃ tail, cs = '.' :: tail := List.head?_eq_some_iff.1 hhead
    rcases cs with - | ⟨c, cs⟩
    · cases h
    rw [List.cons_append, List.cons_append]
    by_cases hc : isDigit c = true
    · simp only [fractionPart, hc, if_true, takeWhile_append_of_eq_false hdigit,
        dropWhile_append_of_eq_false hdigit] at h ⊢
      -- a second dot is one of the text and not of what follows it
      generalize cs.dropWhile isDigit = behind at h ⊢
      rcases behind with - | ⟨a, - | ⟨b, behind⟩⟩
      · obtain ⟨rfl, rfl⟩ : _ ∧ _ := by simpa using h
        simp [hdot]
      · by_cases ha : a = '.'
        · obtain ⟨rfl, rfl⟩ : _ ∧ _ := by simpa [ha] using h
          simp [ha, hdigit]
        · obtain ⟨rfl, rfl⟩ : _ ∧ _ := by simpa [ha] using h
          simp [ha]
      · by_cases ha : a = '.'
        · by_cases hb : isDigit b = true
          · simp [ha, hb] at h
          · obtain ⟨rfl, rfl⟩ : _ ∧ _ := by simpa [ha, hb] using h
            simp [ha, hb]
        · obtain ⟨rfl, rfl⟩ : _ ∧ _ := by simpa [ha] using h
          simp [ha]
    · simp only [fractionPart, hc, Bool.false_eq_true, if_false] at h ⊢
      split at h
      · rename_i hname
        obtain ⟨rfl, rfl⟩ := Prod.mk.inj (Except.ok.inj h)
        exact if_pos hname
      · cases h
  · rw [fractionPart_of_ne_dot hhead] at h
    obtain ⟨rfl, rfl⟩ := Prod.mk.inj (Except.ok.inj h)
    apply fractionPart_of_ne_dot
    rcases cs with - | ⟨c, cs⟩
    · exact fun heq => hdot (Option.some.inj heq)
    · exact hhead

theorem splitExponent_append {e : Int} (h : Number.splitExponent cs = .ok (e, rest)) :
    Number.splitExponent (cs ++ w :: more) = .ok (e, rest ++ w :: more) := by
  have hdigit := isDigit_eq_false_of_isBlank hw
  have hsmall : w ≠ 'e' := ne_of_isBlank hw (by decide)
  have hlarge : w ≠ 'E' := ne_of_isBlank hw (by decide)
  rcases cs with - | ⟨c, cs⟩
  · obtain ⟨rfl, rfl⟩ := Prod.mk.inj (Except.ok.inj h)
    simp [Number.splitExponent, hsmall, hlarge]
  · rw [List.cons_append]
    unfold Number.splitExponent at h ⊢
    dsimp only at h ⊢
    split
    · rename_i hc
      rw [if_pos hc] at h
      -- there are digits, so the sign in front of them is one of the text
      have hne : cs ≠ [] := by
        rintro rfl
        simp [splitSign] at h
      rw [splitSign_append hne]
      simp only [takeWhile_append_of_eq_false hdigit, dropWhile_append_of_eq_false hdigit]
      split at h
      · cases h
      · rename_i hds
        obtain ⟨rfl, rfl⟩ := Prod.mk.inj (Except.ok.inj h)
        simp only [hds]
        rfl
    · rename_i hc
      rw [if_neg hc] at h
      obtain ⟨rfl, rfl⟩ := Prod.mk.inj (Except.ok.inj h)
      rfl

theorem unsignedText_append {negative : Bool} {n : Number}
    (h : unsignedText afterDot negative cs = .ok (n, rest)) :
    unsignedText afterDot negative (cs ++ w :: more) = .ok (n, rest ++ w :: more) := by
  have hdigit := isDigit_eq_false_of_isBlank hw
  have hunderscore : w ≠ '_' := ne_of_isBlank hw (by decide)
  unfold unsignedText at h ⊢
  rw [takeWhile_append_of_eq_false hdigit, dropWhile_append_of_eq_false hdigit]
  split at h
  · cases h
  rename_i fraction behindFraction hfraction
  -- the fraction stays what it was
  have hfraction' : (if afterDot then .ok ([], cs.dropWhile isDigit ++ w :: more)
      else fractionPart (cs.dropWhile isDigit ++ w :: more)) =
        Except.ok (fraction, behindFraction ++ w :: more) := by
    cases afterDot with
    | false => exact fractionPart_append hw hfraction
    | true =>
      obtain ⟨rfl, rfl⟩ := Prod.mk.inj (Except.ok.inj hfraction)
      rfl
  split at h
  · cases h
  rename_i exponent behind hexponent
  split at h
  · cases h
  rename_i hbehind
  obtain ⟨rfl, rfl⟩ := Prod.mk.inj (Except.ok.inj h)
  have hexponent' : Number.splitExponent (behindFraction ++ w :: more) =
      .ok (exponent, behind ++ w :: more) := splitExponent_append hw hexponent
  -- and white space does not go on with a number
  have hbehind' : (behind ++ w :: more).head?.any
      (fun c => isAlphanumeric c || c = '_') = false := by
    rcases behind with - | ⟨c, behind⟩
    · simp [isAlphanumeric_eq_false_of_isBlank hw, hunderscore]
    · simpa using hbehind
  simp only [hfraction', hexponent', hbehind', Bool.false_eq_true, if_false]

/-- White space ends a number. -/
theorem numberText_append {n : Number} (h : numberText afterDot cs = .ok (n, rest)) :
    numberText afterDot (cs ++ w :: more) = .ok (n, rest ++ w :: more) := by
  by_cases hminus : cs.head? = some '-'
  · obtain ⟨cs, rfl⟩ := List.head?_eq_some_iff.1 hminus
    rw [numberText_minus] at h
    rw [List.cons_append, numberText_minus]
    exact unsignedText_append hw h
  · have hminus' : (cs ++ w :: more).head? ≠ some '-' := by
      rcases cs with - | ⟨c, cs⟩
      · exact fun heq => ne_of_isBlank hw (by decide) (Option.some.inj heq)
      · exact hminus
    rw [numberText_of_ne_minus hminus] at h
    rw [numberText_of_ne_minus hminus']
    exact unsignedText_append hw h

theorem withEquals_append (longer shorter : Token) :
    withEquals longer shorter (cs ++ w :: more) =
      ((withEquals longer shorter cs).1, (withEquals longer shorter cs).2 ++ w :: more) := by
  have hequals : w ≠ '=' := ne_of_isBlank hw (by decide)
  rcases cs with - | ⟨c, cs⟩
  · simp [withEquals, hequals]
  · by_cases hc : c = '='
    · subst hc
      rfl
    · simp [withEquals, hc]

/-- **White space ends a lexeme.** -/
theorem lexeme_append {c : Char} {t : Token}
    (h : lexeme afterDot offset c cs = .ok (t, rest)) (offset' : Nat) :
    lexeme afterDot offset' c (cs ++ w :: more) = .ok (t, rest ++ w :: more) := by
  have hword := continuesWord_eq_false_of_isBlank hw
  -- a sign may go on with an equals sign
  have hequals : ∀ longer shorter,
      (.ok (withEquals longer shorter cs) : Except LexError _) = .ok (t, rest) →
      (.ok (withEquals longer shorter (cs ++ w :: more)) : Except LexError _) =
        .ok (t, rest ++ w :: more) := by
    intro longer shorter heq
    rw [withEquals_append hw, Except.ok.inj heq]
  -- a minus that starts a number stands before a digit of the text
  have hstart : (isDigit c || (c = '-' && cs.head?.any isDigit)) =
      (isDigit c || (c = '-' && (cs ++ w :: more).head?.any isDigit)) := by
    rcases cs with - | ⟨d, cs⟩
    · simp [isDigit_eq_false_of_isBlank hw]
    · rfl
  unfold lexeme at h ⊢
  rw [← hstart]
  cases hsign : Token.ofSign? c with
  | some sign =>
    simp only [hsign] at h ⊢
    obtain ⟨rfl, rfl⟩ := Prod.mk.inj (Except.ok.inj h)
    rfl
  | none =>
    simp only [hsign] at h ⊢
    by_cases heq : c = '='
    · rw [if_pos heq] at h ⊢
      exact hequals _ _ h
    rw [if_neg heq] at h ⊢
    by_cases hlt : c = '<'
    · rw [if_pos hlt] at h ⊢
      exact hequals _ _ h
    rw [if_neg hlt] at h ⊢
    by_cases hgt : c = '>'
    · rw [if_pos hgt] at h ⊢
      exact hequals _ _ h
    rw [if_neg hgt] at h ⊢
    by_cases hbang : c = '!'
    · rw [if_pos hbang] at h ⊢
      split at h
      · obtain ⟨rfl, rfl⟩ := Prod.mk.inj (Except.ok.inj h)
        rfl
      · cases h
    rw [if_neg hbang] at h ⊢
    by_cases hquote : (c = '"' || c = '\'') = true
    · rw [if_pos hquote] at h ⊢
      split at h
      · cases h
      · rename_i body behind hbody
        obtain ⟨rfl, rfl⟩ := Prod.mk.inj (Except.ok.inj h)
        rw [stringBody_append hbody (w :: more) offset' (offset' + 1)]
    rw [if_neg hquote] at h ⊢
    split at h
    · rename_i hnumber
      rw [if_pos hnumber]
      split at h
      · cases h
      · rename_i n behind hn
        obtain ⟨rfl, rfl⟩ := Prod.mk.inj (Except.ok.inj h)
        rw [← List.cons_append, numberText_append hw hn]
    · rename_i hnumber
      rw [if_neg hnumber]
      split at h
      · rename_i hstarts
        rw [if_pos hstarts]
        obtain ⟨rfl, rfl⟩ := Prod.mk.inj (Except.ok.inj h)
        rw [takeWhile_append_of_eq_false hword, dropWhile_append_of_eq_false hword]
      · cases h

/-! ### Scans -/

/-- **A scan goes on behind white space as if nothing stood before it.** -/
theorem scanFrom_append {scan : Scan} (h : scanFrom offset afterDot cs = .ok scan) :
    scanFrom offset afterDot (cs ++ w :: more) =
      (scanFrom (scan.finish + 1) false more).map (Scan.behind scan.tokens) := by
  fun_induction scanFrom offset afterDot cs generalizing scan with
  | case1 offset afterDot =>
    obtain rfl := Except.ok.inj h
    rw [List.nil_append, scanFrom_blank hw]
    cases scanFrom (offset + 1) false more <;> rfl
  | case2 offset afterDot c cs hblank ih =>
    rw [List.cons_append, scanFrom_blank hblank, ih h]
  | case3 => cases h
  | case4 => cases h
  | case5 offset afterDot c cs hblank token rest hlexeme scan' hscan ih =>
    obtain rfl := Except.ok.inj h
    -- the lexeme is as long as it was
    have hstep : (cs ++ w :: more).length - (rest ++ w :: more).length =
        cs.length - rest.length := by
      simp only [List.length_append]
      omega
    rw [List.cons_append, scanFrom_lexeme hblank (lexeme_append hw hlexeme offset), hstep,
      ih hscan, Scan.finish_behind]
    cases scanFrom (scan'.finish + 1) false more <;> rfl

end Blank

/-- White space in front of a text is no part of its tokens. -/
theorem scanFrom_blanks {blanks : List Char} (h : ∀ w ∈ blanks, isBlank w = true)
    (offset : Nat) (more : List Char) :
    scanFrom offset false (blanks ++ more) = scanFrom (offset + blanks.length) false more := by
  induction blanks generalizing offset with
  | nil => rfl
  | cons w blanks ih =>
    obtain ⟨hw, hblanks⟩ := List.forall_mem_cons.1 h
    have hplace : offset + 1 + blanks.length = offset + (w :: blanks).length := by
      simp only [List.length_cons]
      omega
    rw [List.cons_append, scanFrom_blank hw, ih hblanks, hplace]

/-! ### Places -/

/-- An error, `k` characters further on. -/
def further (k : Nat) (err : LexError) : LexError := ⟨err.cause, err.offset + k⟩

/-- Tokens, `k` characters further on. -/
def moved (k : Nat) (tokens : List Placed) : List Placed :=
  tokens.map fun p => ⟨p.token, p.offset + k⟩

/-- A scan of a text that stands `k` characters further on. -/
def movedScan (k : Nat) (scan : Scan) : Scan := ⟨moved k scan.tokens, scan.finish + k⟩

theorem map_token_moved (k : Nat) (tokens : List Placed) :
    (moved k tokens).map Placed.token = tokens.map Placed.token := by
  rw [moved, List.map_map]
  rfl

section MapError

variable {ε ε' α : Type} (f : ε → ε')

theorem mapError_error (err : ε) : (Except.error err : Except ε α).mapError f = .error (f err) :=
  rfl

theorem mapError_ok (a : α) : (Except.ok a : Except ε α).mapError f = .ok a := rfl

end MapError

theorem stringBody_add (quote : Char) (start offset k : Nat) (cs : List Char) :
    stringBody quote (start + k) (offset + k) cs =
      (stringBody quote start offset cs).mapError (further k) := by
  fun_induction stringBody quote start offset cs with
  | case1 => rfl
  | case2 offset cs =>
    rw [stringBody.eq_def]
    exact if_pos rfl
  | case3 offset hq =>
    rw [stringBody.eq_def]
    simp [hq, further, mapError_error]
  | case4 offset e rest hx hq =>
    rw [stringBody.eq_def]
    simp [hq, hx, further, mapError_error]
  | case5 offset e rest x hx err herr hq ih =>
    rw [stringBody.eq_def]
    have hplace : offset + k + 2 = offset + 2 + k := by omega
    simp [hq, hx, hplace, ih, herr, mapError_error]
  | case6 offset e rest x hx body behind hbody hq ih =>
    rw [stringBody.eq_def]
    have hplace : offset + k + 2 = offset + 2 + k := by omega
    simp [hq, hx, hplace, ih, hbody, mapError_ok]
  | case7 offset c cs hq hb err herr ih =>
    rw [stringBody.eq_def]
    have hplace : offset + k + 1 = offset + 1 + k := by omega
    simp [hq, hb, hplace, ih, herr, mapError_error]
  | case8 offset c cs hq hb body behind hbody ih =>
    rw [stringBody.eq_def]
    have hplace : offset + k + 1 = offset + 1 + k := by omega
    simp [hq, hb, hplace, ih, hbody, mapError_ok]

/-- The place of a lexeme only shows in its errors. -/
theorem lexeme_add (afterDot : Bool) (offset k : Nat) (c : Char) (cs : List Char) :
    lexeme afterDot (offset + k) c cs =
      (lexeme afterDot offset c cs).mapError (further k) := by
  have hplace : offset + k + 1 = offset + 1 + k := by omega
  unfold lexeme
  cases Token.ofSign? c with
  | some sign => rfl
  | none =>
    dsimp only
    rw [hplace, stringBody_add]
    split
    · rfl
    split
    · rfl
    split
    · rfl
    split
    · split <;> rfl
    split
    · cases stringBody c offset (offset + 1) cs <;> rfl
    split
    · cases numberText afterDot (c :: cs) <;> rfl
    split
    · rfl
    · rfl

/-- **A text further on has the same tokens further on**, or the same error. -/
theorem scanFrom_add (offset k : Nat) (afterDot : Bool) (cs : List Char) :
    scanFrom (offset + k) afterDot cs =
      ((scanFrom offset afterDot cs).mapError (further k)).map (movedScan k) := by
  fun_induction scanFrom offset afterDot cs with
  | case1 =>
    rw [scanFrom]
    rfl
  | case2 offset afterDot c cs hblank ih =>
    have hplace : offset + k + 1 = offset + 1 + k := by omega
    rw [scanFrom_blank hblank, hplace, ih]
  | case3 offset afterDot c cs hblank err herr =>
    have hlexeme := lexeme_add afterDot offset k c cs
    rw [herr] at hlexeme
    rw [scanFrom_of_lexeme_error hblank hlexeme]
    rfl
  | case4 offset afterDot c cs hblank token rest hlexeme err herr ih =>
    have hlexeme' := lexeme_add afterDot offset k c cs
    have hplace : offset + k + 1 + (cs.length - rest.length) =
        offset + 1 + (cs.length - rest.length) + k := by omega
    rw [hlexeme] at hlexeme'
    rw [scanFrom_lexeme hblank hlexeme', hplace, ih, herr]
    rfl
  | case5 offset afterDot c cs hblank token rest hlexeme scan hscan ih =>
    have hlexeme' := lexeme_add afterDot offset k c cs
    have hplace : offset + k + 1 + (cs.length - rest.length) =
        offset + 1 + (cs.length - rest.length) + k := by omega
    rw [hlexeme] at hlexeme'
    rw [scanFrom_lexeme hblank hlexeme', hplace, ih, hscan]
    rfl

/-- **A scan ends where its text does.** -/
theorem finish_of_scanFrom {scan : Scan} (h : scanFrom offset afterDot cs = .ok scan) :
    scan.finish = offset + cs.length := by
  fun_induction scanFrom offset afterDot cs generalizing scan with
  | case1 =>
    obtain rfl := Except.ok.inj h
    rfl
  | case2 offset afterDot c cs hblank ih =>
    rw [ih h, List.length_cons]
    omega
  | case3 => cases h
  | case4 => cases h
  | case5 offset afterDot c cs hblank token rest hlexeme scan' hscan ih =>
    obtain rfl := Except.ok.inj h
    -- a lexeme takes characters from the front, so what is behind it is no longer than the text
    have hle := length_lexeme_le hlexeme
    rw [Scan.finish_behind, ih hscan, List.length_cons]
    omega

/-- **A text behind white space is scanned as if it stood alone**, only further on. -/
theorem scanFrom_append_blanks {a b blanks : List Char} {first : Scan}
    (ha : scanFrom 0 false a = .ok first) (hne : blanks ≠ [])
    (hblanks : ∀ w ∈ blanks, isBlank w = true) :
    scanFrom 0 false (a ++ blanks ++ b) =
      ((scanFrom 0 false b).mapError (further (a ++ blanks).length)).map
        fun second => (movedScan (a ++ blanks).length second).behind first.tokens := by
  obtain ⟨w, blanks, rfl⟩ := List.exists_cons_of_ne_nil hne
  obtain ⟨hw, hblanks⟩ := List.forall_mem_cons.1 hblanks
  have htext : a ++ w :: blanks ++ b = a ++ w :: (blanks ++ b) := by simp
  have hplace : first.finish + 1 + blanks.length = 0 + (a ++ w :: blanks).length := by
    rw [finish_of_scanFrom ha, List.length_append, List.length_cons]
    omega
  rw [htext, scanFrom_append hw ha, scanFrom_blanks hblanks, hplace, scanFrom_add]
  cases scanFrom 0 false b <;> rfl

end Lexer

/-! ### Texts -/

/-- The tokens of two texts with white space between them are those of the one and then those of
the other. -/
theorem exists_tokenize_append {a b text : String} {first second : Scan}
    (ha : tokenize a = .ok first) (hb : tokenize b = .ok second) {w : Char} {blanks : List Char}
    (hblanks : ∀ c ∈ w :: blanks, isBlank c = true)
    (htext : text.toList = a.toList ++ w :: (blanks ++ b.toList)) :
    ∃ scan, tokenize text = .ok scan ∧
      scan.tokens.map Placed.token =
        first.tokens.map Placed.token ++ second.tokens.map Placed.token := by
  let place := (a.toList ++ w :: blanks).length
  have hscan : tokenize text = .ok ((Lexer.movedScan place second).behind first.tokens) := by
    have htext' : text.toList = a.toList ++ w :: blanks ++ b.toList := by simp [htext]
    unfold tokenize at ha hb ⊢
    rw [htext', Lexer.scanFrom_append_blanks ha (List.cons_ne_nil _ _) hblanks, hb]
    rfl
  refine ⟨_, hscan, ?_⟩
  rw [Scan.tokens_behind, List.map_append, Lexer.movedScan, Lexer.map_token_moved]

/-- **Texts are read apart where white space stands between them.**  The tokens are those of the
first text and then those of the second one, as much further on as the second text is; where the
second text has none, the error is its error, as much further on. -/
theorem tokenize_append {a : String} {first : Scan} (ha : tokenize a = .ok first) {blanks : String}
    (hne : blanks ≠ "") (hblanks : ∀ w ∈ blanks.toList, isBlank w = true) (b : String) :
    tokenize (a ++ blanks ++ b) =
      match tokenize b with
      | .ok second =>
        .ok ⟨first.tokens ++ Lexer.moved (a ++ blanks).length second.tokens,
          second.finish + (a ++ blanks).length⟩
      | .error err => .error (Lexer.further (a ++ blanks).length err) := by
  have hne' : blanks.toList ≠ [] := fun h => hne (String.toList_eq_nil_iff.1 h)
  have hlength : (a ++ blanks).length = (a.toList ++ blanks.toList).length := by
    rw [← String.length_toList, String.toList_append]
  unfold tokenize at ha ⊢
  rw [String.toList_append, String.toList_append, Lexer.scanFrom_append_blanks ha hne' hblanks,
    hlength]
  cases Lexer.scanFrom 0 false b.toList <;> rfl

/-- A dot at the end of the first text takes no fraction from a number of the second one, and a
malformed number is reported where it stands. -/
theorem tokenize_append_number :
    let first : Scan := ⟨[⟨.identifier "a", 0⟩, ⟨.dot, 1⟩], 2⟩
    let blanks := "\u3000\n"
    (tokenize "a." = .ok first ∧ blanks ≠ "" ∧ ∀ w ∈ blanks.toList, isBlank w = true) ∧
      tokenize ("a." ++ blanks ++ "1.5") =
        .ok ⟨first.tokens ++ [⟨.number (.ofDigits false ['1'] ['5'] 0), 4⟩], 7⟩ ∧
      tokenize ("a." ++ blanks ++ "x 1.5.2") = .error ⟨.malformedNumber "1.5.2", 6⟩ := by
  intro first blanks
  have hfirst : tokenize "a." = .ok first := by decide +kernel
  have hne : blanks ≠ "" := by decide
  have hblanks : ∀ w ∈ blanks.toList, isBlank w = true := List.all_eq_true.1 (by decide +kernel)
  have hnumber : tokenize "1.5" = .ok ⟨[⟨.number (.ofDigits false ['1'] ['5'] 0), 0⟩], 3⟩ := by
    decide +kernel
  have hmalformed : tokenize "x 1.5.2" = .error ⟨.malformedNumber "1.5.2", 2⟩ := by
    decide +kernel
  refine ⟨⟨hfirst, hne, hblanks⟩, ?_, ?_⟩
  · rw [tokenize_append hfirst hne hblanks, hnumber]
    decide +kernel
  · rw [tokenize_append hfirst hne hblanks, hmalformed]
    decide +kernel

end MetadataRules
