import CertifiedPlanning.Json.Basic
import CertifiedPlanning.Text.Quoted

/-!
# Writing JSON

`Json.compact` writes a value without blanks, `Json.pretty` with one item or member per line,
indented by two blanks per level.
-/

namespace CertifiedPlanning.Json

/-- One character of a text. Quotes, backslashes and control characters are escaped. -/
def writtenChar (c : Char) : String :=
  match c with
  | '"' => "\\\""
  | '\\' => "\\\\"
  | '\x08' => "\\b"
  | '\x0c' => "\\f"
  | '\n' => "\\n"
  | '\r' => "\\r"
  | '\t' => "\\t"
  | c =>
      if c.toNat < 0x20 then
        let digits := hexDigits c.toNat
        "\\u" ++ String.ofList (List.replicate (4 - digits.length) '0') ++ digits
      else c.toString

/-- A text between quotes. -/
def writtenText (s : String) : String :=
  s.foldl (fun acc c => acc ++ writtenChar c) "\"" ++ "\""

/-- A value on one line, without blanks, appended to what is written already. -/
def compactTo (acc : String) : Json → String
  | .null => acc ++ "null"
  | .bool b => acc ++ (if b then "true" else "false")
  | .number literal => acc ++ literal
  | .text s => acc ++ writtenText (s.getD "")
  | .array items => compactItems (acc ++ "[") true items ++ "]"
  | .object members => compactMembers (acc ++ "\x7b") true members ++ "\x7d"
where
  /-- Items with commas between them. -/
  compactItems (acc : String) (first : Bool) : List Json → String
    | [] => acc
    | item :: rest =>
        compactItems (compactTo (if first then acc else acc ++ ",") item) false rest
  /-- Members with commas between them. -/
  compactMembers (acc : String) (first : Bool) : List (Option String × Json) → String
    | [] => acc
    | (name, value) :: rest =>
        let acc := if first then acc else acc ++ ","
        compactMembers (compactTo (acc ++ writtenText (name.getD "") ++ ":") value) false rest

/-- A value on one line, without blanks. -/
def compact (j : Json) : String := compactTo "" j

/-- A new line at a level of nesting. -/
def newLine (level : Nat) : String := "\n" ++ String.ofList (List.replicate (2 * level) ' ')

/-- A value with one item or member per line, appended to what is written already. -/
def prettyTo (level : Nat) (acc : String) : Json → String
  | .null => acc ++ "null"
  | .bool b => acc ++ (if b then "true" else "false")
  | .number literal => acc ++ literal
  | .text s => acc ++ writtenText (s.getD "")
  | .array [] => acc ++ "[]"
  | .array items => prettyItems level (acc ++ "[") true items ++ newLine level ++ "]"
  | .object [] => acc ++ "\x7b\x7d"
  | .object members => prettyMembers level (acc ++ "\x7b") true members ++ newLine level ++ "\x7d"
where
  /-- Items on lines of their own. -/
  prettyItems (level : Nat) (acc : String) (first : Bool) : List Json → String
    | [] => acc
    | item :: rest =>
        let acc := (if first then acc else acc ++ ",") ++ newLine (level + 1)
        prettyItems level (prettyTo (level + 1) acc item) false rest
  /-- Members on lines of their own. -/
  prettyMembers (level : Nat) (acc : String) (first : Bool) :
      List (Option String × Json) → String
    | [] => acc
    | (name, value) :: rest =>
        let acc := (if first then acc else acc ++ ",") ++ newLine (level + 1)
        prettyMembers level
          (prettyTo (level + 1) (acc ++ writtenText (name.getD "") ++ ": ") value) false rest

/-- A value with one item or member per line. -/
def pretty (j : Json) : String := prettyTo 0 "" j

end CertifiedPlanning.Json
