/-
MetadataRules/Text/Quoted.lean

Strings between double quotes, as they stand in change lines and messages: a
quote, a backslash and the usual controls have short escapes, and any other
control character is written by its code.
-/
import MetadataRules.Text.Class

namespace MetadataRules

/-- A digit of the hexadecimal system, in lower case. -/
def hexDigit (n : Nat) : Char := Nat.digitChar (n % 16)

/-- A code point below `2 ^ 16` as four hexadecimal digits. -/
def hexCode (n : Nat) : List Char :=
  [hexDigit (n / 4096), hexDigit (n / 256), hexDigit (n / 16), hexDigit n]

/-- A character as it is written between the quotes. -/
def escapeChar (c : Char) : List Char :=
  if c = '"' then ['\\', '"']
  else if c = '\\' then ['\\', '\\']
  else if c = '\n' then ['\\', 'n']
  else if c = '\r' then ['\\', 'r']
  else if c = '\t' then ['\\', 't']
  else if isControl c then '\\' :: 'u' :: hexCode c.toNat
  else [c]

/-- A string between quotes, each character written as told. -/
def quoteWith (escape : Char → List Char) (s : String) : List Char :=
  '"' :: (s.toList.flatMap escape ++ ['"'])

/-- A string between quotes. -/
def quoted (s : String) : List Char := quoteWith escapeChar s

end MetadataRules
