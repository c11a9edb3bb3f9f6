/-
MetadataRules/Token/Lexer.lean

Rule text split into tokens.

`scanFrom` skips white space and takes one lexeme after the other off the
front of the text; it counts the characters on its way, and the place it has
come to when nothing is left is the end of the scan.  Each reader of a lexeme
answers with the token and the text behind it, which is never longer than what
it was given (`length_lexeme_le`), so the scan ends.  A number right after a dot
is a position in a path: `matrix.0.1` has three segments, so such a number takes
no fraction.
-/
import MetadataRules.Number.Reader
import MetadataRules.Text.Class
import MetadataRules.Token.Basic

namespace MetadataRules

/-! ### Errors -/

/-- Why a text cannot be split into tokens. -/
inductive LexCause where
  | invalidEscape (c : Char)
  | unterminated (quote : Char)
  | malformedNumber (text : String)
  | loneExclamation
  | unexpected (c : Char)
deriving DecidableEq

/-- A cause and its place in the text, in characters. -/
structure LexError where
  cause : LexCause
  offset : Nat
deriving DecidableEq

/-- The message of a cause. -/
def LexCause.message : LexCause → String
  | invalidEscape c => s!"Invalid escape sequence '\\{c}' in string"
  | unterminated quote => s!"Unterminated string: missing closing {quote}"
  | malformedNumber text => s!"Malformed number '{text}'"
  | loneExclamation => "Unexpected '!' (did you mean '!=' or NOT?)"
  | unexpected c => s!"Unexpected character '{c}'"

namespace Lexer

/-! ### Strings -/

/-- The character that an escape stands for. -/
def unescape? : Char → Option Char
  | 'n' => some '\n'
  | 't' => some '\t'
  | 'r' => some '\r'
  | '"' => some '"'
  | '\'' => some '\''
  | '\\' => some '\\'
  | _ => none

/-- The characters up to the closing quote and the text behind it.  `start` is
the place of the opening quote and `offset` the place of the next character. -/
def stringBody (quote : Char) (start : Nat) :
    Nat → List Char → Except LexError (List Char × List Char)
  | _, [] => .error ⟨.unterminated quote, start⟩
  | offset, c :: cs =>
    if c = quote then .ok ([], cs)
    else if c = '\\' then
      match cs with
      | [] => .error ⟨.unterminated quote, start⟩
      | e :: rest =>
        match unescape? e with
        | none => .error ⟨.invalidEscape e, offset⟩
        | some x =>
          match stringBody quote start (offset + 2) rest with
          | .error err => .error err
          | .ok (body, behind) => .ok (x :: body, behind)
    else
      match stringBody quote start (offset + 1) cs with
      | .error err => .error err
      | .ok (body, behind) => .ok (c :: body, behind)

theorem length_stringBody_le {quote : Char} {start offset : Nat} {cs body behind : List Char}
    (h : stringBody quote start offset cs = .ok (body, behind)) :
    behind.length ≤ cs.length := by
  fun_induction stringBody quote start offset cs generalizing body behind with
  | case1 => simp at h
  | case2 => simp_all
  | case3 => simp at h
  | case4 => simp at h
  | case5 => simp at h
  | case6 offset e rest x hx body' behind' heq hq ih =>
    simp only [Except.ok.injEq, Prod.mk.injEq] at h
    have := ih heq
    simp [← h.2]
    omega
  | case7 => simp at h
  | case8 offset c cs hc hb body' behind' heq ih =>
    simp only [Except.ok.injEq, Prod.mk.injEq] at h
    have := ih heq
    simp [← h.2]
    omega

/-! ### Numbers -/

/-- The fraction of a number: its digits and the text behind it, or the text
from where the number is malformed.  A dot before a name belongs to a path. -/
def fractionPart : List Char → Except (List Char) (List Char × List Char)
  | '.' :: c :: cs =>
    if isDigit c then
      let behind := cs.dropWhile isDigit
      let second := match behind with
        | '.' :: d :: _ => isDigit d
        | _ => false
      if second then .error behind else .ok (c :: cs.takeWhile isDigit, behind)
    else if isLetter c || c = '_' || c = '"' || c = '\'' then .ok ([], '.' :: c :: cs)
    else .error ('.' :: c :: cs)
  | ['.'] => .error ['.']
  | cs => .ok ([], cs)

/-- A number and the text behind it, or the text from where it is malformed. -/
def numberText (afterDot : Bool) (cs : List Char) :
    Except (List Char) (Number × List Char) :=
  let (negative, unsigned) := match cs with
    | '-' :: rest => (true, rest)
    | rest => (false, rest)
  let whole := unsigned.takeWhile isDigit
  let behindWhole := unsigned.dropWhile isDigit
  match if afterDot then .ok ([], behindWhole) else fractionPart behindWhole with
  | .error fault => .error fault
  | .ok (fraction, behindFraction) =>
    match Number.splitExponent behindFraction with
    | .error fault => .error fault
    | .ok (exponent, behind) =>
      if behind.head?.any fun c => isAlphanumeric c || c = '_' then .error behind
      else .ok (Number.ofDigits negative whole fraction exponent, behind)

/-- The malformed number as the message shows it: up to the fault and on to the end of the word. -/
def malformedText (cs fault : List Char) : String :=
  String.ofList (cs.take (cs.length - fault.length) ++
    fault.takeWhile fun c => isAlphanumeric c || c = '_' || c = '.')

theorem length_dropWhile_le (p : Char → Bool) (cs : List Char) :
    (cs.dropWhile p).length ≤ cs.length :=
  (List.dropWhile_sublist p).length_le

theorem length_splitExponent_le {cs behind : List Char} {e : Int}
    (h : Number.splitExponent cs = .ok (e, behind)) : behind.length ≤ cs.length := by
  cases cs with
  | nil => simp [Number.splitExponent] at h; simp [← h.2]
  | cons c cs =>
    have hsign : (splitSign cs).2.length ≤ cs.length := by
      unfold splitSign; split <;> simp
    simp only [Number.splitExponent] at h
    split at h
    · split at h
      · simp at h
      · simp only [Except.ok.injEq, Prod.mk.injEq] at h
        have := length_dropWhile_le isDigit (splitSign cs).2
        simp only [← h.2, List.length_cons]
        omega
    · simp only [Except.ok.injEq, Prod.mk.injEq] at h
      simp [← h.2]

theorem length_fractionPart_le {cs fraction behind : List Char}
    (h : fractionPart cs = .ok (fraction, behind)) : behind.length ≤ cs.length := by
  unfold fractionPart at h
  split at h
  · rename_i c cs
    have hlen := length_dropWhile_le isDigit cs
    split at h
    · dsimp only at h
      generalize (match cs.dropWhile isDigit with
        | '.' :: d :: _ => isDigit d
        | _ => false) = second at h
      cases second
      · simp only [Bool.false_eq_true, if_false, Except.ok.injEq, Prod.mk.injEq] at h
        simp only [← h.2, List.length_cons]
        omega
      · simp at h
    · split at h
      · simp only [Except.ok.injEq, Prod.mk.injEq] at h
        simp [← h.2]
      · simp at h
  · simp at h
  · simp only [Except.ok.injEq, Prod.mk.injEq] at h
    simp [← h.2]

/-! ### Lexemes -/

/-- The token of a sign that may go on with an equals sign. -/
def withEquals (longer shorter : Token) : List Char → Token × List Char
  | '=' :: rest => (longer, rest)
  | rest => (shorter, rest)

/-- The token that starts with `c` at `offset`, and the text behind it. -/
def lexeme (afterDot : Bool) (offset : Nat) (c : Char) (cs : List Char) :
    Except LexError (Token × List Char) :=
  match Token.ofSign? c with
  | some sign => .ok (sign, cs)
  | none =>
    if c = '=' then .ok (withEquals .eq .eq cs)
    else if c = '<' then .ok (withEquals .ltEq .lt cs)
    else if c = '>' then .ok (withEquals .gtEq .gt cs)
    else if c = '!' then
      match cs with
      | '=' :: rest => .ok (.notEq, rest)
      | _ => .error ⟨.loneExclamation, offset⟩
    else if c = '"' || c = '\'' then
      match stringBody c offset (offset + 1) cs with
      | .error err => .error err
      | .ok (body, rest) => .ok (.string (String.ofList body), rest)
    else if isDigit c || (c = '-' && cs.head?.any isDigit) then
      match numberText afterDot (c :: cs) with
      | .error fault => .error ⟨.malformedNumber (malformedText (c :: cs) fault), offset⟩
      | .ok (n, rest) => .ok (.number n, rest)
    else if startsWord c then
      .ok (.ofWord (String.ofList (c :: cs.takeWhile continuesWord)),
        cs.dropWhile continuesWord)
    else .error ⟨.unexpected c, offset⟩

theorem length_withEquals_le (longer shorter : Token) (cs : List Char) :
    (withEquals longer shorter cs).2.length ≤ cs.length := by
  unfold withEquals
  split <;> simp

/-- A number leaves less text than it was given. -/
theorem length_numberText_lt {afterDot : Bool} {c : Char} {cs rest : List Char} {n : Number}
    (hc : (isDigit c || (c = '-' && cs.head?.any isDigit)) = true)
    (h : numberText afterDot (c :: cs) = .ok (n, rest)) : rest.length ≤ cs.length := by
  have hwhole : ∀ u : Bool × List Char,
      u = (match c :: cs with
        | '-' :: rest => (true, rest)
        | rest => (false, rest)) →
      (u.2.dropWhile isDigit).length ≤ cs.length := by
    rintro u rfl
    split
    · rename_i heq
      simp only [List.cons.injEq] at heq
      simpa [heq.2] using length_dropWhile_le isDigit cs
    · rename_i hne
      have hd : isDigit c = true := by
        rcases Bool.or_eq_true _ _ ▸ hc with h | h
        · exact h
        · simp only [Bool.and_eq_true, decide_eq_true_eq] at h
          exact absurd (by rw [h.1]) (hne cs)
      simpa [List.dropWhile_cons, hd] using length_dropWhile_le isDigit cs
  simp only [numberText] at h
  generalize (match c :: cs with
    | '-' :: rest => (true, rest)
    | rest => (false, rest)) = u at h hwhole
  specialize hwhole u rfl
  split at h
  · simp at h
  · rename_i fraction behind hfrac
    have hle : behind.length ≤ cs.length := by
      split at hfrac
      · simp only [Except.ok.injEq, Prod.mk.injEq] at hfrac
        simpa [← hfrac.2] using hwhole
      · exact Nat.le_trans (length_fractionPart_le hfrac) hwhole
    split at h
    · simp at h
    · rename_i e behind' hexp
      have hle' := length_splitExponent_le hexp
      split at h
      · simp at h
      · simp only [Except.ok.injEq, Prod.mk.injEq] at h
        rw [← h.2]
        omega

/-- A lexeme has at least one character. -/
theorem length_lexeme_le {afterDot : Bool} {offset : Nat} {c : Char} {cs rest : List Char}
    {t : Token} (h : lexeme afterDot offset c cs = .ok (t, rest)) :
    rest.length ≤ cs.length := by
  unfold lexeme at h
  split at h
  · simp only [Except.ok.injEq, Prod.mk.injEq] at h
    simp [h.2]
  · split at h
    · simp only [Except.ok.injEq] at h
      simpa [h] using length_withEquals_le .eq .eq cs
    split at h
    · simp only [Except.ok.injEq] at h
      simpa [h] using length_withEquals_le .ltEq .lt cs
    split at h
    · simp only [Except.ok.injEq] at h
      simpa [h] using length_withEquals_le .gtEq .gt cs
    split at h
    · split at h
      · simp only [Except.ok.injEq, Prod.mk.injEq] at h
        simp [h.2]
      · simp at h
    split at h
    · split at h
      · simp at h
      · rename_i heq
        simp only [Except.ok.injEq, Prod.mk.injEq] at h
        simpa [← h.2] using length_stringBody_le heq
    split at h
    · rename_i hc
      split at h
      · simp at h
      · rename_i heq
        simp only [Except.ok.injEq, Prod.mk.injEq] at h
        simpa [← h.2] using length_numberText_lt hc heq
    split at h
    · simp only [Except.ok.injEq, Prod.mk.injEq] at h
      simpa [← h.2] using length_dropWhile_le continuesWord cs
    · simp at h

/-! ### Texts -/

/-- The tokens of a text that starts at `offset`, and the place where it ends; `afterDot` tells
whether a dot stands right before it. -/
def scanFrom (offset : Nat) (afterDot : Bool) (text : List Char) : Except LexError Scan :=
  match text with
  | [] => .ok ⟨[], offset⟩
  | c :: cs =>
    if isBlank c then scanFrom (offset + 1) false cs
    else
      match _h : lexeme afterDot offset c cs with
      | .error err => .error err
      | .ok (token, rest) =>
        match scanFrom (offset + 1 + (cs.length - rest.length)) (token == .dot) rest with
        | .error err => .error err
        | .ok scan => .ok (scan.behind [⟨token, offset⟩])
termination_by text.length
decreasing_by
  · simp
  · have := length_lexeme_le _h
    simp only [List.length_cons]
    omega

end Lexer

/-- The tokens of a rule text. -/
def tokenize (text : String) : Except LexError Scan := Lexer.scanFrom 0 false text.toList

end MetadataRules
