/-
MetadataRules/Token/Basic.lean

The words and signs that rule text is made of.

A token is kept with the place where it starts, counted in characters.  The
end of the text is no token of its own: a `Scan` holds the tokens of a text
and the place of its end.
-/
import MetadataRules.Keyword
import MetadataRules.Number.Notation

namespace MetadataRules

/-- A word, a literal or a sign of rule text. -/
inductive Token where
  | number (n : Number)
  | string (s : String)
  | boolean (b : Bool)
  | null
  | identifier (name : String)
  | keyword (kw : Keyword)
  | eq
  | notEq
  | lt
  | ltEq
  | gt
  | gtEq
  | leftBracket
  | rightBracket
  | leftBrace
  | rightBrace
  | leftParen
  | rightParen
  | comma
  | dot
  | colon
  | at_
deriving DecidableEq

/-- A token and the place of its first character. -/
structure Placed where
  token : Token
  offset : Nat
deriving DecidableEq

/-- The tokens of a text and the place of its end. -/
structure Scan where
  tokens : List Placed
  finish : Nat
deriving DecidableEq

/-- The scan of a text with other tokens in front. -/
def Scan.behind (front : List Placed) (scan : Scan) : Scan := ⟨front ++ scan.tokens, scan.finish⟩

@[simp] theorem Scan.tokens_behind (front : List Placed) (scan : Scan) :
    (scan.behind front).tokens = front ++ scan.tokens := rfl

@[simp] theorem Scan.finish_behind (front : List Placed) (scan : Scan) :
    (scan.behind front).finish = scan.finish := rfl

namespace Token

/-- The signs of one character that no longer sign starts with. -/
def ofSign? : Char → Option Token
  | '[' => some leftBracket
  | ']' => some rightBracket
  | '{' => some leftBrace
  | '}' => some rightBrace
  | '(' => some leftParen
  | ')' => some rightParen
  | ',' => some comma
  | '.' => some dot
  | ':' => some colon
  | '@' => some at_
  | _ => none

/-- What a word stands for: a value, a keyword or a name. -/
def ofWord (word : String) : Token :=
  if word = "true" then boolean true
  else if word = "false" then boolean false
  else if word = "null" then null
  else match Keyword.ofName? word with
    | some kw => keyword kw
    | none => identifier word

/-- A token in the words of a message. -/
def describe : Token → String
  | number n => s!"number {String.ofList n.plainText}"
  | string s => s!"string \"{s}\""
  | boolean true => "true"
  | boolean false => "false"
  | null => "null"
  | identifier name => s!"'{name}'"
  | keyword kw => kw.name
  | eq => "'='"
  | notEq => "'!='"
  | lt => "'<'"
  | ltEq => "'<='"
  | gt => "'>'"
  | gtEq => "'>='"
  | leftBracket => "'['"
  | rightBracket => "']'"
  | leftBrace => "'\x7b'"
  | rightBrace => "'\x7d'"
  | leftParen => "'('"
  | rightParen => "')'"
  | comma => "','"
  | dot => "'.'"
  | colon => "':'"
  | at_ => "'@'"

/-- The next token in the words of a message, where there may be none left. -/
def describeNext : Option Token → String
  | none => "end of input"
  | some t => t.describe

end Token

end MetadataRules
