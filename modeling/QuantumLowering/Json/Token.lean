/-
  Reading JSON: from characters to tokens.

  * `JsonToken`: brackets, separators, words, numbers and strings.
  * `JsonToken.scan?`: the tokens of a text, if it falls into tokens.
  * `JsonToken.skip?`: what follows one whole value.

  A string with an unpaired surrogate has no text; it is a token all the same, because a value
  that nobody reads may hold one.  A number is known only if it is a natural number written
  without sign, fraction and exponent.
-/
import QuantumLowering.Text.Digits

namespace QuantumLowering

/-- A token of JSON. -/
inductive JsonToken
  | openBrace
  | closeBrace
  | openBracket
  | closeBracket
  | colon
  | comma
  | null
  | bool (value : Bool)
  /-- A number, with its value if it is a plain natural number. -/
  | number (value : Option Nat)
  /-- A string, with its text unless a surrogate in it is unpaired. -/
  | string (text : Option String)
deriving DecidableEq, Repr

namespace JsonToken

/-! ## Strings -/

/-- The 16-bit unit of four hexadecimal digits. -/
def unit? (a b c d : Char) : Option Nat :=
  (hexValue? a).bind fun a => (hexValue? b).bind fun b => (hexValue? c).bind fun c =>
    (hexValue? d).map fun d => ((a * 16 + b) * 16 + c) * 16 + d

/-- The character of a one-letter escape. -/
def simpleEscape? : Char → Option Char
  | '"' => some '"'
  | '\\' => some '\\'
  | '/' => some '/'
  | 'b' => some (Char.ofNat 8)
  | 'f' => some (Char.ofNat 12)
  | 'n' => some '\n'
  | 'r' => some '\r'
  | 't' => some '\t'
  | _ => none

/-- The 16-bit units of a string up to its closing quote, other characters as they are, and
    what follows. -/
def stringParts? : List Char → Option (List (Nat ⊕ Char) × List Char)
  | [] => none
  | '"' :: rest => some ([], rest)
  | '\\' :: 'u' :: a :: b :: c :: d :: rest =>
    (unit? a b c d).bind fun u => (stringParts? rest).map fun (parts, rest) =>
      (.inl u :: parts, rest)
  | '\\' :: e :: rest =>
    (simpleEscape? e).bind fun x => (stringParts? rest).map fun (parts, rest) =>
      (.inr x :: parts, rest)
  | c :: rest =>
    if c.toNat < 32 ∨ c = '\\' then none
    else (stringParts? rest).map fun (parts, rest) => (.inr c :: parts, rest)

/-- The text of units and characters, if every surrogate is half of a pair. -/
def decodeParts? : List (Nat ⊕ Char) → Option (List Char)
  | [] => some []
  | .inr c :: rest => (decodeParts? rest).map (c :: ·)
  | .inl high :: .inl low :: rest =>
    if 0xD800 ≤ high ∧ high < 0xDC00 then
      if 0xDC00 ≤ low ∧ low < 0xE000 then
        (decodeParts? rest).map
          (Char.ofNat (0x10000 + (high - 0xD800) * 0x400 + (low - 0xDC00)) :: ·)
      else none
    else if 0xDC00 ≤ high ∧ high < 0xE000 then none
    else (decodeParts? (.inl low :: rest)).map (Char.ofNat high :: ·)
  | .inl u :: rest =>
    if 0xD800 ≤ u ∧ u < 0xE000 then none
    else (decodeParts? rest).map (Char.ofNat u :: ·)

/-! ## Numbers -/

/-- The digits at the front, and what follows. -/
def spanDigits (cs : List Char) : List Char × List Char :=
  (cs.takeWhile Char.isDigit, cs.dropWhile Char.isDigit)

/-- What follows an integer without superfluous zeros. -/
def afterInteger? (cs : List Char) : Option (List Char) :=
  match spanDigits cs with
  | ([], _) => none
  | ('0' :: _ :: _, _) => none
  | (_, rest) => some rest

/-- What follows an optional fraction. -/
def afterFraction? : List Char → Option (List Char)
  | '.' :: cs =>
    match spanDigits cs with
    | ([], _) => none
    | (_, rest) => some rest
  | cs => some cs

/-- What follows an optional exponent. -/
def afterExponent? : List Char → Option (List Char)
  | [] => some []
  | c :: cs =>
    if c = 'e' ∨ c = 'E' then
      let digits := match cs with
        | '+' :: r => r
        | '-' :: r => r
        | r => r
      match spanDigits digits with
      | ([], _) => none
      | (_, rest) => some rest
    else some (c :: cs)

/-- Whether a number goes on behind its integer. -/
def hasPart : List Char → Bool
  | c :: _ => c = '.' || c = 'e' || c = 'E'
  | [] => false

/-- A number at the front, and what follows. -/
def number? (cs : List Char) : Option (JsonToken × List Char) :=
  let (negative, digits) := match cs with
    | '-' :: r => (true, r)
    | r => (false, r)
  (afterInteger? digits).bind fun whole => (afterFraction? whole).bind fun part =>
    (afterExponent? part).map fun rest =>
      (number (if negative || hasPart whole then none
        else some (decimalValue (spanDigits digits).1)), rest)

/-! ## Tokens -/

/-- The token at the front of a text that does not start with a blank, and what follows. -/
def next? : List Char → Option (JsonToken × List Char)
  | '\x7b' :: r => some (openBrace, r)
  | '\x7d' :: r => some (closeBrace, r)
  | '[' :: r => some (openBracket, r)
  | ']' :: r => some (closeBracket, r)
  | ':' :: r => some (colon, r)
  | ',' :: r => some (comma, r)
  | 'n' :: 'u' :: 'l' :: 'l' :: r => some (null, r)
  | 't' :: 'r' :: 'u' :: 'e' :: r => some (bool true, r)
  | 'f' :: 'a' :: 'l' :: 's' :: 'e' :: r => some (bool false, r)
  | '"' :: r => (stringParts? r).map fun (parts, r) =>
      (string ((decodeParts? parts).map String.ofList), r)
  | cs => number? cs

/-- Whether a character may stand between tokens. -/
def isBlank (c : Char) : Bool := c = ' ' || c = '\n' || c = '\t' || c = '\r'

/-- The tokens of a text of at most so many characters. -/
def scanLoop? : Nat → List Char → Option (List JsonToken)
  | 0, cs => if (cs.dropWhile isBlank).isEmpty then some [] else none
  | fuel + 1, cs =>
    match cs.dropWhile isBlank with
    | [] => some []
    | c :: r => (next? (c :: r)).bind fun (t, r) => (scanLoop? fuel r).map (t :: ·)

/-- The tokens of a text, if it falls into tokens. -/
def scan? (s : String) : Option (List JsonToken) := scanLoop? s.length s.toList

/-! ## Whole values -/

mutual
/-- What follows one value, whatever it is; a value has at most so many tokens. -/
def skip? : Nat → List JsonToken → Option (List JsonToken)
  | 0, _ => none
  | fuel + 1, ts =>
    match ts with
    | null :: r | bool _ :: r | number _ :: r | string _ :: r => some r
    | openBracket :: closeBracket :: r => some r
    | openBracket :: r => skipElements? fuel r
    | openBrace :: closeBrace :: r => some r
    | openBrace :: r => skipMembers? fuel r
    | _ => none

/-- What follows the elements of an array and its closing bracket. -/
def skipElements? : Nat → List JsonToken → Option (List JsonToken)
  | 0, _ => none
  | fuel + 1, ts =>
    match skip? fuel ts with
    | some (comma :: r) => skipElements? fuel r
    | some (closeBracket :: r) => some r
    | _ => none

/-- What follows the members of an object and its closing brace. -/
def skipMembers? : Nat → List JsonToken → Option (List JsonToken)
  | 0, _ => none
  | fuel + 1, ts =>
    match ts with
    | string _ :: colon :: r =>
      match skip? fuel r with
      | some (comma :: r) => skipMembers? fuel r
      | some (closeBrace :: r) => some r
      | _ => none
    | _ => none
end

end JsonToken

end QuantumLowering
