import CertifiedPlanning.Number.Text

/-!
# JSON values

A JSON value as it was written: numbers keep their literal, and objects keep all their members in
order, repeated names included. A text that spells only half of a surrogate pair is grammatical,
but stands for no text; it is kept as `none`, so that it can be skipped where nobody reads it.
-/

namespace CertifiedPlanning

/-- A JSON value. -/
inductive Json where
  | null
  | bool (value : Bool)
  | number (literal : String)
  | text (value : Option String)
  | array (items : List Json)
  | object (members : List (Option String × Json))
deriving Inhabited

namespace Json

/-- A count. -/
def ofNat (n : Nat) : Json := .number (toString n)

/-- A text. -/
def ofString (s : String) : Json := .text (some s)

/-- A list of named members. -/
def ofMembers (members : List (String × Json)) : Json :=
  .object (members.map fun m => (some m.1, m.2))

/-- A number in the style of documents; infinities and the invalid number become `null`. -/
def ofFloat (x : Float) : Json :=
  if x.isFinite then .number (shortestText .document x) else .null

/-- A decimal literal taken apart: sign, digits of the significand and exponent of the last. -/
structure Literal where
  negative : Bool
  digits : Nat
  exponent : Int
  /-- There is neither a fraction nor an exponent. -/
  whole : Bool

/-- The number that a row of digits spells. -/
def digitsValue (cs : List Char) : Nat :=
  cs.foldl (fun n c => 10 * n + (c.toNat - '0'.toNat)) 0

/-- Reads a row of digits with an optional sign. -/
def signedValue : List Char → Int
  | '-' :: cs => -(digitsValue cs : Int)
  | '+' :: cs => digitsValue cs
  | cs => digitsValue cs

/-- Takes a well-formed literal apart. -/
def literalOf (s : String) : Literal :=
  let negative := s.toList.head? == some '-'
  let cs := if negative then s.toList.drop 1 else s.toList
  let whole := cs.takeWhile (·.isDigit)
  let rest := cs.dropWhile (·.isDigit)
  let fraction := if rest.head? == some '.' then (rest.drop 1).takeWhile (·.isDigit) else []
  let rest := if rest.head? == some '.' then (rest.drop 1).dropWhile (·.isDigit) else rest
  { negative := negative
    digits := digitsValue (whole ++ fraction)
    exponent := signedValue (rest.drop 1) - fraction.length
    whole := fraction.isEmpty && rest.isEmpty }

/-- The count that a literal spells, if it is a whole number that fits into 64 bits. -/
def nat? : Json → Option Nat
  | .number s =>
      let l := literalOf s
      if l.whole && !l.negative && decide (l.digits < UInt64.size) then some l.digits else none
  | _ => none

/-- The floating-point number nearest to a literal. -/
def nearest (s : String) : Float :=
  let l := literalOf s
  nearestFloat l.negative l.digits l.exponent

/-- The floating-point number that a literal spells; a literal beyond the range spells none. -/
def float? : Json → Option Float
  | .number s =>
      let x := nearest s
      if x.isFinite then some x else none
  | _ => none

def bool? : Json → Option Bool
  | .bool b => some b
  | _ => none

def string? : Json → Option String
  | .text s => s
  | _ => none

def items? : Json → Option (List Json)
  | .array items => some items
  | _ => none

/-- An array whose items can all be read. -/
def listOf? {α : Type} (read : Json → Option α) (j : Json) : Option (List α) := do
  let items ← j.items?
  items.mapM read

/-- An array of two. -/
def pairOf? {α β : Type} (first : Json → Option α) (second : Json → Option β) (j : Json) :
    Option (α × β) :=
  match j with
  | .array [a, b] => do return (← first a, ← second b)
  | _ => none

/-- A value or `null`. -/
def optional? {α : Type} (read : Json → Option α) (j : Json) : Option (Option α) :=
  match j with
  | .null => some none
  | j => some <$> read j

/-- The value of a member, the first of that name. -/
def member? (j : Json) (name : String) : Option Json :=
  match j with
  | .object members => (members.find? fun m => m.1 == some name).map Prod.snd
  | _ => none

/-- The values of the members named, in that order; a member that is missing has none. A record
may also be written as the array of its members, of which the last ones may be missing. Members
with other names are skipped; a repeated name or one that is no text is refused. -/
def record? (names : List String) (j : Json) : Option (List (Option Json)) :=
  match j with
  | .array items =>
      if items.length ≤ names.length then
        some (items.map some ++ List.replicate (names.length - items.length) none)
      else none
  | .object members =>
      let values := fun name => members.filterMap fun m =>
        if m.1 == some name then some m.2 else none
      if members.all (fun m => m.1.isSome) && names.all (fun n => (values n).length ≤ 1) then
        some (names.map fun n => (values n).head?)
      else none
  | _ => none

/-- One of several names, written as a text or as the only member of an object, with value
`null`. -/
def choice? {α : Type} (options : List (String × α)) (j : Json) : Option α :=
  match j with
  | .text (some name) => options.lookup name
  | .object [(some name, .null)] => options.lookup name
  | _ => none

end Json

end CertifiedPlanning
