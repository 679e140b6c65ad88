import CertifiedPlanning.Json.Basic

/-!
# Reading JSON

`Json.parse?` reads one value with nothing but blanks around it, by the grammar of JSON: no
comments, no trailing commas, no leading zeros, no control characters inside texts.
-/

namespace CertifiedPlanning.Json

/-- The four blank characters. -/
def isBlank (c : Char) : Bool := c == ' ' || c == '\n' || c == '\t' || c == '\r'

/-- Skips blanks. -/
def skipBlanks (cs : List Char) : List Char := cs.dropWhile isBlank

/-- Value of a hexadecimal digit. -/
def hexDigit? (c : Char) : Option Nat :=
  if c.isDigit then some (c.toNat - '0'.toNat)
  else if 'a' ≤ c && c ≤ 'f' then some (c.toNat - 'a'.toNat + 10)
  else if 'A' ≤ c && c ≤ 'F' then some (c.toNat - 'A'.toNat + 10)
  else none

/-- Value of four hexadecimal digits. -/
def hexQuad? (a b c d : Char) : Option Nat := do
  return ((← hexDigit? a) * 16 + (← hexDigit? b)) * 256 + (← hexDigit? c) * 16 + (← hexDigit? d)

/-- A piece of a text: a character, or one half of a surrogate pair. -/
inductive Piece where
  | char (c : Char)
  | half (unit : Nat)

/-- The piece that a 16-bit unit stands for. -/
def Piece.ofUnit (unit : Nat) : Piece :=
  if 0xD800 ≤ unit ∧ unit < 0xE000 then .half unit else .char (Char.ofNat unit)

/-- The character after a backslash, the four-digit escapes apart. -/
def shortEscape? : Char → Option Char
  | '"' => some '"'
  | '\\' => some '\\'
  | '/' => some '/'
  | 'b' => some '\x08'
  | 'f' => some '\x0c'
  | 'n' => some '\n'
  | 'r' => some '\r'
  | 't' => some '\t'
  | _ => none

/-- Pieces up to the closing quote, the last one first, and what follows the quote. -/
def pieces? (acc : List Piece) : List Char → Option (List Piece × List Char)
  | [] => none
  | '"' :: rest => some (acc, rest)
  | '\\' :: 'u' :: a :: b :: c :: d :: rest =>
      match hexQuad? a b c d with
      | some unit => pieces? (.ofUnit unit :: acc) rest
      | none => none
  | '\\' :: c :: rest =>
      match shortEscape? c with
      | some c => pieces? (.char c :: acc) rest
      | none => none
  | c :: rest => if c.toNat < 0x20 then none else pieces? (.char c :: acc) rest

/-- Joins pieces that are listed last one first onto the characters after them; halves must pair
up, the high one before the low one. -/
def joinPieces? (after : List Char) : List Piece → Option (List Char)
  | [] => some after
  | .char c :: rest => joinPieces? (c :: after) rest
  | .half low :: .half high :: rest =>
      if high < 0xDC00 ∧ 0xDC00 ≤ low then
        joinPieces? (Char.ofNat (0x10000 + (high - 0xD800) * 0x400 + (low - 0xDC00)) :: after) rest
      else none
  | .half _ :: _ => none

/-- A text after its opening quote. -/
def text? (cs : List Char) : Option (Option String × List Char) := do
  let (pieces, rest) ← pieces? [] cs
  return ((joinPieces? [] pieces).map String.ofList, rest)

/-- At least one digit. -/
def digits? (cs : List Char) : Option (List Char × List Char) :=
  let digits := cs.takeWhile (·.isDigit)
  if digits.isEmpty then none else some (digits, cs.dropWhile (·.isDigit))

/-- Digits without a superfluous leading zero. -/
def wholePart? (cs : List Char) : Option (List Char × List Char) := do
  let (digits, rest) ← digits? cs
  if digits.length ≤ 1 || digits.head? != some '0' then return (digits, rest) else none

/-- A point and digits, or nothing. -/
def fractionPart? (cs : List Char) : Option (List Char × List Char) :=
  match cs with
  | '.' :: rest => do
      let (digits, rest) ← digits? rest
      return ('.' :: digits, rest)
  | cs => some ([], cs)

/-- The letter of an exponent, a sign if there is one and digits, or nothing. -/
def exponentPart? (cs : List Char) : Option (List Char × List Char) :=
  match cs with
  | c :: rest =>
      if c == 'e' || c == 'E' then
        let sign := rest.takeWhile (fun c => c == '+' || c == '-') |>.take 1
        match digits? (rest.drop sign.length) with
        | some (digits, rest) => some (c :: sign ++ digits, rest)
        | none => none
      else some ([], cs)
  | [] => some ([], [])

/-- A number, kept as its literal. -/
def number? (cs : List Char) : Option (Json × List Char) := do
  let sign := if cs.head? == some '-' then ['-'] else []
  let (whole, rest) ← wholePart? (cs.drop sign.length)
  let (fraction, rest) ← fractionPart? rest
  let (exponent, rest) ← exponentPart? rest
  return (.number (String.ofList (sign ++ whole ++ fraction ++ exponent)), rest)

/-- A value that is a word. -/
def word? (word : String) (value : Json) (cs : List Char) : Option (Json × List Char) :=
  let letters := word.toList
  if letters.isPrefixOf cs then some (value, cs.drop letters.length) else none

mutual

/-- One value, and what follows it. Every nested call reads at least one character, so the length
of the text is fuel enough. -/
def value? : Nat → List Char → Option (Json × List Char)
  | 0, _ => none
  | fuel + 1, cs =>
      match skipBlanks cs with
      | '[' :: rest =>
          match skipBlanks rest with
          | ']' :: rest => some (.array [], rest)
          | rest => do
              let (items, rest) ← itemList? fuel rest
              return (.array items, rest)
      | '\x7b' :: rest =>
          match skipBlanks rest with
          | '\x7d' :: rest => some (.object [], rest)
          | rest => do
              let (members, rest) ← memberList? fuel rest
              return (.object members, rest)
      | '"' :: rest => do
          let (s, rest) ← text? rest
          return (.text s, rest)
      | 't' :: rest => word? "rue" (.bool true) rest
      | 'f' :: rest => word? "alse" (.bool false) rest
      | 'n' :: rest => word? "ull" .null rest
      | rest => number? rest

/-- Values separated by commas, up to the closing bracket. -/
def itemList? : Nat → List Char → Option (List Json × List Char)
  | 0, _ => none
  | fuel + 1, cs => do
      let (item, rest) ← value? fuel cs
      match skipBlanks rest with
      | ',' :: rest => do
          let (items, rest) ← itemList? fuel rest
          return (item :: items, rest)
      | ']' :: rest => return ([item], rest)
      | _ => none

/-- Members separated by commas, up to the closing brace. -/
def memberList? : Nat → List Char → Option (List (Option String × Json) × List Char)
  | 0, _ => none
  | fuel + 1, cs =>
      match skipBlanks cs with
      | '"' :: rest => do
          let (name, rest) ← text? rest
          match skipBlanks rest with
          | ':' :: rest => do
              let (value, rest) ← value? fuel rest
              match skipBlanks rest with
              | ',' :: rest => do
                  let (members, rest) ← memberList? fuel rest
                  return ((name, value) :: members, rest)
              | '\x7d' :: rest => return ([(name, value)], rest)
              | _ => none
          | _ => none
      | _ => none

end

/-- The value that a whole text spells. -/
def parse? (s : String) : Option Json := do
  let cs := s.toList
  let (value, rest) ← value? (2 * cs.length + 2) cs
  if (skipBlanks rest).isEmpty then return value else none

end CertifiedPlanning.Json
