/-
MetadataRules/Json/Reader.lean

Reading JSON text.

The grammar is strict: no comma at the end of a list, no control character in
a string, no lone surrogate behind `\u`, and nothing but white space behind the
value.  Lists and objects nest up to a fixed depth.
-/
import MetadataRules.Json.Number
import MetadataRules.Taken

namespace MetadataRules

namespace JsonText

/-! ### White space -/

/-- The four characters of white space in JSON. -/
def isSpace (c : Char) : Bool := c = ' ' || c = '\t' || c = '\n' || c = '\r'

def skipSpace (cs : List Char) : List Char := cs.dropWhile isSpace

theorem length_skipSpace_le (cs : List Char) : (skipSpace cs).length ≤ cs.length :=
  (List.dropWhile_sublist isSpace).length_le

/-! ### Strings -/

/-- The code unit that four hexadecimal digits stand for. -/
def codeUnit? (a b c d : Char) : Option Nat := do
  let a ← hexValue? a
  let b ← hexValue? b
  let c ← hexValue? c
  let d ← hexValue? d
  return ((a * 16 + b) * 16 + c) * 16 + d

/-- The character of a short escape. -/
def shortEscape? : Char → Option Char
  | '"' => some '"'
  | '\\' => some '\\'
  | '/' => some '/'
  | 'b' => some '\x08'
  | 'f' => some '\x0c'
  | 'n' => some '\n'
  | 'r' => some '\r'
  | 't' => some '\t'
  | _ => none

/-- The character behind `\u`, and the text behind it.  A high surrogate needs
a low one right behind it, and a low one does not stand alone. -/
def unicodeEscape? : List Char → Option (Char × List Char)
  | a :: b :: c :: d :: rest =>
    (codeUnit? a b c d).bind fun unit =>
      if unit < 0xD800 || 0xDFFF < unit then some (Char.ofNat unit, rest)
      else if 0xDC00 ≤ unit then none
      else match rest with
        | '\\' :: 'u' :: e :: f :: g :: h :: behind =>
          (codeUnit? e f g h).bind fun low =>
            if 0xDC00 ≤ low && low ≤ 0xDFFF then
              some (Char.ofNat (0x10000 + (unit - 0xD800) * 0x400 + (low - 0xDC00)), behind)
            else none
        | _ => none
  | _ => none

theorem length_unicodeEscape?_lt {cs rest : List Char} {x : Char}
    (h : unicodeEscape? cs = some (x, rest)) : rest.length < cs.length := by
  unfold unicodeEscape? at h
  split at h
  · obtain ⟨unit, _, h⟩ := Option.bind_eq_some_iff.1 h
    split at h
    · simp only [Option.some.injEq, Prod.mk.injEq] at h
      simp only [h.2, List.length_cons]
      omega
    · split at h
      · simp at h
      · split at h
        · obtain ⟨low, _, h⟩ := Option.bind_eq_some_iff.1 h
          split at h
          · simp only [Option.some.injEq, Prod.mk.injEq] at h
            simp only [h.2, List.length_cons]
            omega
          · simp at h
        · simp at h
  · simp at h

/-- The characters up to the closing quote, and the text behind it. -/
def stringBody? (cs : List Char) : Option (Taken Char (List Char) cs.length) :=
  match cs with
  | [] => none
  | c :: rest =>
    if c = '"' then some (.single [] c rest)
    else if c = '\\' then
      match rest with
      | [] => none
      | e :: behind =>
        if e = 'u' then
          match _h : unicodeEscape? behind with
          | none => none
          | some (x, after) =>
            have hlt : after.length < behind.length := length_unicodeEscape?_lt _h
            (stringBody? after).map fun t =>
              ((t.map (x :: ·)).widen (Nat.le_of_lt hlt)).behind.behind
        else
          match shortEscape? e with
          | none => none
          | some x => (stringBody? behind).map fun t => (t.map (x :: ·)).behind.behind
    else if c.toNat < 0x20 then none
    else (stringBody? rest).map fun t => (t.map (c :: ·)).behind
termination_by cs.length

/-! ### Numbers -/

/-- The digits of a fraction, which may be missing; none when it is begun without digits. -/
def fraction? : List Char → Option (Option (List Char) × List Char)
  | '.' :: rest =>
    let ds := rest.takeWhile isDigit
    if ds.isEmpty then none else some (some ds, rest.dropWhile isDigit)
  | cs => some (none, cs)

/-- The power of ten, which may be missing; none when it is begun without digits. -/
def exponent? : List Char → Option (Option Int × List Char)
  | [] => some (none, [])
  | c :: cs =>
    if c = 'e' ∨ c = 'E' then
      match Number.splitExponent (c :: cs) with
      | .ok (e, rest) => some (some e, rest)
      | .error _ => none
    else some (none, c :: cs)

/-- The pieces of a number, and the text behind it.  A zero in front stands alone. -/
def numberText? (cs : List Char) : Option (NumberText × List Char) :=
  let (negative, unsigned) := match cs with
    | '-' :: rest => (true, rest)
    | rest => (false, rest)
  let whole := unsigned.takeWhile isDigit
  if whole.isEmpty || (whole.head? = some '0' && 1 < whole.length) then none
  else do
    let (fraction, behindFraction) ← fraction? (unsigned.dropWhile isDigit)
    let (exponent, rest) ← exponent? behindFraction
    return (⟨negative, whole, fraction, exponent⟩, rest)

/-! ### Values -/

/-- How deep lists and objects may nest. -/
def depthLimit : Nat := 127

/-- A word that stands for a value. -/
def word? : List Char → Option (Json × List Char)
  | 'n' :: 'u' :: 'l' :: 'l' :: rest => some (.null, rest)
  | 't' :: 'r' :: 'u' :: 'e' :: rest => some (.boolean true, rest)
  | 'f' :: 'a' :: 'l' :: 's' :: 'e' :: rest => some (.boolean false, rest)
  | _ => none

/-- A word or a number, and the text behind it. -/
def scalar? (cs : List Char) : Option (Json × List Char) :=
  match word? cs with
  | some answer => some answer
  | none => do
    let (t, rest) ← numberText? cs
    let j ← t.toJson?
    return (j, rest)

mutual

/-- Reads a value at the start of a text.  `depth` is how deep it may nest. -/
def value? (depth : Nat) (cs : List Char) : Option (Taken Char Json cs.length) :=
  match cs with
  | [] => none
  | c :: rest =>
    if c = '"' then
      (stringBody? rest).map fun t =>
        (t.map fun body => .string (String.ofList body)).behind
    else if c = '[' then
      if depth = 0 then none
      else match hs : skipSpace rest with
        | [] => none
        | d :: behind =>
          have hle : behind.length + 1 ≤ rest.length := by
            have := length_skipSpace_le rest
            simpa only [hs, List.length_cons] using this
          if d = ']' then some ⟨.array [], behind, by simp only [List.length_cons]; omega⟩
          else (items? (depth - 1) (d :: behind)).map fun t =>
            (t.map .array).widen (by simp only [List.length_cons]; omega)
    else if c = '{' then
      if depth = 0 then none
      else match hs : skipSpace rest with
        | [] => none
        | d :: behind =>
          have hle : behind.length + 1 ≤ rest.length := by
            have := length_skipSpace_le rest
            simpa only [hs, List.length_cons] using this
          if d = '}' then some ⟨.object [], behind, by simp only [List.length_cons]; omega⟩
          else (members? (depth - 1) (d :: behind)).map fun t =>
            (t.map .object).widen (by simp only [List.length_cons]; omega)
    else match scalar? (c :: rest) with
      | none => none
      | some (j, behind) =>
        if h : behind.length < (c :: rest).length then some ⟨j, behind, h⟩ else none
termination_by 2 * cs.length
decreasing_by all_goals (simp only [List.length_cons]; omega)

/-- Reads the items of a list up to its closing bracket. -/
def items? (depth : Nat) (cs : List Char) : Option (Taken Char (List Json) cs.length) :=
  match value? depth cs with
  | none => none
  | some item =>
    match hs : skipSpace item.rest with
    | [] => none
    | d :: behind =>
      have hlt : behind.length + 1 < cs.length := by
        have h1 := length_skipSpace_le item.rest
        have h2 := item.fewer
        rw [hs, List.length_cons] at h1
        omega
      if d = ']' then some ⟨[item.value], behind, by omega⟩
      else if d = ',' then
        have hle := length_skipSpace_le behind
        (items? depth (skipSpace behind)).map fun t =>
          (t.map (item.value :: ·)).widen (by omega)
      else none
termination_by 2 * cs.length + 1
decreasing_by all_goals omega

/-- Reads the members of an object up to its closing brace. -/
def members? (depth : Nat) (cs : List Char) :
    Option (Taken Char (List (String × Json)) cs.length) :=
  match cs with
  | [] => none
  | q :: rest =>
    if q = '"' then
      match stringBody? rest with
      | none => none
      | some key =>
        match hc : skipSpace key.rest with
        | [] => none
        | colon :: behindColon =>
          have hcolon : behindColon.length + 1 < rest.length := by
            have h1 := length_skipSpace_le key.rest
            have h2 := key.fewer
            rw [hc, List.length_cons] at h1
            omega
          if colon = ':' then
            have hle := length_skipSpace_le behindColon
            match value? depth (skipSpace behindColon) with
            | none => none
            | some item =>
              match hs : skipSpace item.rest with
              | [] => none
              | d :: behind =>
                have hlt : behind.length + 1 < rest.length := by
                  have h1 := length_skipSpace_le item.rest
                  have h2 := item.fewer
                  rw [hs, List.length_cons] at h1
                  omega
                if d = '}' then
                  some ⟨[(String.ofList key.value, item.value)], behind,
                    by simp only [List.length_cons]; omega⟩
                else if d = ',' then
                  have hle' := length_skipSpace_le behind
                  (members? depth (skipSpace behind)).map fun t =>
                    (t.map ((String.ofList key.value, item.value) :: ·)).widen
                      (by simp only [List.length_cons]; omega)
                else none
          else none
    else none
termination_by 2 * cs.length + 1
decreasing_by all_goals (simp only [List.length_cons]; omega)

end

/-- Reads a text that is one value, with white space around it. -/
def whole? (cs : List Char) : Option Json :=
  match value? depthLimit (skipSpace cs) with
  | none => none
  | some t => if (skipSpace t.rest).isEmpty then some t.value else none

end JsonText

/-- The JSON tree that a text is. -/
def Json.ofText? (text : String) : Option Json :=
  JsonText.whole? text.toList

end MetadataRules
