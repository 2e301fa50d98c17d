/-
  JSON values and their texts.

  * `Json`: a value; the members of an object keep their order.
  * `Json.quote`: a string in quotes, with control characters escaped.
  * `Json.compact`: without blanks.
  * `Json.pretty`: one member a line, two spaces a level.
-/
import QuantumLowering.Text.Digits

namespace QuantumLowering

/-- A JSON value. -/
inductive Json
  | null
  | bool (value : Bool)
  | number (value : Int)
  | string (value : String)
  | array (elements : List Json)
  | object (members : List (String × Json))

namespace Json

/-- A character inside quotes. -/
def escape (c : Char) : String :=
  match c with
  | '"' => "\\\""
  | '\\' => "\\\\"
  | '\n' => "\\n"
  | '\r' => "\\r"
  | '\t' => "\\t"
  | _ =>
    if c = Char.ofNat 8 then "\\b"
    else if c = Char.ofNat 12 then "\\f"
    else if c.toNat < 32 then
      "\\u00" ++ String.ofList [hexDigit (c.toNat / 16), hexDigit (c.toNat % 16)]
    else String.ofList [c]

/-- A string in quotes. -/
def quote (s : String) : String := "\"" ++ String.join (s.toList.map escape) ++ "\""

/-- Parts separated by commas, between brackets. -/
def enclose (left right : String) (parts : List String) : String :=
  left ++ ",".intercalate parts ++ right

mutual
/-- The text of a value without blanks. -/
def compact : Json → String
  | .null => "null"
  | .bool b => if b then "true" else "false"
  | .number n => toString n
  | .string s => quote s
  | .array es => enclose "[" "]" (compactElements es)
  | .object ms => enclose "\x7b" "\x7d" (compactMembers ms)

/-- The texts of the elements of an array. -/
def compactElements : List Json → List String
  | [] => []
  | e :: es => e.compact :: compactElements es

/-- The texts of the members of an object. -/
def compactMembers : List (String × Json) → List String
  | [] => []
  | (k, v) :: ms => (quote k ++ ":" ++ v.compact) :: compactMembers ms
end

/-- Parts on lines of their own between brackets; brackets alone if there are none. -/
def encloseLines (indent : Nat) (left right : String) (parts : List String) : String :=
  if parts.isEmpty then left ++ right
  else
    let inner := "\n" ++ "".pushn ' ' (indent + 2)
    left ++ inner ++ ("," ++ inner).intercalate parts ++ "\n" ++ "".pushn ' ' indent ++ right

mutual
/-- The text of a value that starts in a line indented so far. -/
def prettyAt (indent : Nat) : Json → String
  | .null => "null"
  | .bool b => if b then "true" else "false"
  | .number n => toString n
  | .string s => quote s
  | .array es => encloseLines indent "[" "]" (prettyElements (indent + 2) es)
  | .object ms => encloseLines indent "\x7b" "\x7d" (prettyMembers (indent + 2) ms)

/-- The texts of the elements of an array. -/
def prettyElements (indent : Nat) : List Json → List String
  | [] => []
  | e :: es => e.prettyAt indent :: prettyElements indent es

/-- The texts of the members of an object. -/
def prettyMembers (indent : Nat) : List (String × Json) → List String
  | [] => []
  | (k, v) :: ms => (quote k ++ ": " ++ v.prettyAt indent) :: prettyMembers indent ms
end

/-- The text of a value, one member a line. -/
def pretty (j : Json) : String := j.prettyAt 0

end Json

end QuantumLowering
