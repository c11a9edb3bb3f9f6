/-
MetadataRules/Yaml/Scalar.lean

Scalars of YAML text, plain and between quotes.

A plain scalar is a word for nothing or for a truth value, a number, or else a
string.  `ofPlain` says what a text stands for, and `isPlain` which texts can
stand without quotes at all.  A string is written plain when it can be and
reads back as itself, and between quotes otherwise: single ones, in which a
quote is written twice, or double ones where a character needs an escape.
-/
import MetadataRules.Number.Reader
import MetadataRules.Text.Quoted
import MetadataRules.Yaml.Basic
import MetadataRules.Yaml.Text

namespace MetadataRules

namespace Yaml

/-! ### What a plain scalar stands for -/

/-- The words that stand for something else than themselves. -/
def word? : String → Option Yaml
  | "" | "~" | "null" | "Null" | "NULL" => some .null
  | "true" | "True" | "TRUE" => some (.boolean true)
  | "false" | "False" | "FALSE" => some (.boolean false)
  | ".inf" | ".Inf" | ".INF" | "+.inf" | "+.Inf" | "+.INF" => some (.float (.infinity false))
  | "-.inf" | "-.Inf" | "-.INF" => some (.float (.infinity true))
  | ".nan" | ".NaN" | ".NAN" => some (.float .nan)
  | _ => none

/-- The value of a row of digits to a base. -/
def digitsTo? (base : Nat) (n : Nat) : List Char → Option Nat
  | [] => some n
  | c :: rest =>
    (hexValue? c).bind fun d => if d < base then digitsTo? base (base * n + d) rest else none

/-- The natural number that a text without a sign is: in decimal, or to the base that
a letter behind a zero tells.  A decimal number does not begin with a zero. -/
def natural? : List Char → Option Nat
  | [] => none
  | ['0'] => some 0
  | '0' :: 'x' :: c :: rest => digitsTo? 16 0 (c :: rest)
  | '0' :: 'o' :: c :: rest => digitsTo? 8 0 (c :: rest)
  | '0' :: 'b' :: c :: rest => digitsTo? 2 0 (c :: rest)
  | '0' :: _ => none
  | digits => digitsTo? 10 0 digits

/-- The integer that a text is. -/
def integer? (text : List Char) : Option Int :=
  let (negative, unsigned) := splitSign text
  (natural? unsigned).map fun n => if negative then -(n : Int) else n

/-- The integer has `bits` bits, of which one is for the sign if it is negative. -/
def fitsBits (bits : Nat) (i : Int) : Bool := -(twoPow (bits - 1) : Int) ≤ i && i < twoPow bits

/-- The node of a plain scalar that is no integer: a decimal number or a string.  A zero
and digits are no number, and one beyond the largest number is none either. -/
def ofDecimal (text : List Char) : Yaml :=
  let (_, unsigned) := splitSign text
  match Number.ofText? text with
  | some x =>
    if x.isFinite && !(unsigned.head? = some '0' && 1 < unsigned.length && unsigned.all isDigit)
    then .float x else .string (String.ofList text)
  | none => .string (String.ofList text)

/-- The node of a plain scalar.  An integer that 64 bits cannot hold and 128 bits can
is given back as an error. -/
def ofPlain (text : List Char) : Except Int Yaml :=
  match word? (String.ofList text) with
  | some y => .ok y
  | none =>
    match integer? text with
    | some i =>
      if fitsBits 64 i then .ok (.integer i)
      else if fitsBits 128 i then .error i
      else .ok (ofDecimal text)
    | none => .ok (ofDecimal text)

/-- Floats in YAML: exponents have no plus sign, and what is not finite is a word
behind a dot. -/
def floatStyle : Number.FloatStyle :=
  { plus := false
    missing := ['.', 'n', 'a', 'n']
    infinite := ['.', 'i', 'n', 'f']
    negativeInfinite := ['-', '.', 'i', 'n', 'f'] }

/-! ### Which texts can be plain -/

/-- A text that ends or goes on with a space or a tab. -/
def startsGap : List Char → Bool
  | [] => true
  | c :: _ => isGap c

/-- The characters that begin something else than a plain scalar. -/
def indicators : List Char :=
  [',', '[', ']', '{', '}', '#', '&', '*', '!', '|', '>', '\'', '"', '%', '@', '\x60']

/-- A text that begins as a plain scalar does. -/
def startsPlain : List Char → Bool
  | [] => false
  | c :: rest =>
    if c = '-' || c = '?' || c = ':' then !startsGap rest
    else !isGap c && !indicators.contains c

/-- No colon before a gap or at the end, and no number sign behind a gap. -/
def staysPlain : List Char → Bool
  | [] => true
  | c :: rest =>
    !(c = ':' && startsGap rest) && !(isGap c && rest.head? = some '#') && staysPlain rest

/-- The characters that are written as they are. -/
def isPrintable (c : Char) : Bool := isAllowed c && c ≠ byteOrderMark

/-- A text that begins as the line does that begins or ends a document. -/
def startsMarker : List Char → Bool
  | '-' :: '-' :: '-' :: _ => true
  | '.' :: '.' :: '.' :: _ => true
  | _ => false

/-- A text that stays on its line and needs no escape. -/
def fitsLine (text : List Char) : Bool :=
  text.all fun c => isPrintable c && !isBreak c

/-- A text on one line that can stand without quotes. -/
def isPlain (text : List Char) : Bool :=
  startsPlain text && staysPlain text && !text.getLast?.any isGap && fitsLine text &&
    !startsMarker text

/-! ### Single quotes -/

/-- The text between single quotes: a quote is written twice. -/
def doubleQuotes (text : List Char) : List Char :=
  text.flatMap fun c => if c = '\'' then ['\'', '\''] else [c]

/-- A string in YAML text. -/
def stringText (s : String) : List Char :=
  match isPlain s.toList, ofPlain s.toList with
  | true, .ok (.string _) => s.toList
  | _, _ => if fitsLine s.toList then '\'' :: (doubleQuotes s.toList ++ ['\'']) else quoted s

end Yaml

end MetadataRules
