/-
  YAML text: classes of characters, and positions in a text.

  * `isBreak`, `isBlank`, `isWord`, `isAllowed`: line breaks, blanks, the characters of names,
    and the characters that may occur at all.
  * `endsWord`, `isMarker`: what stands at the front of a text.
  * `Cursor`: the rest of a text with its line, its column, and the bytes in front of it;
    `moveTo` advances to a later rest.
-/

namespace QuantumLowering

namespace Yaml

/-! ## Characters -/

/-- Line breaks; a carriage return with the line feed after it is one break. -/
def isBreak (c : Char) : Bool :=
  c = '\n' || c = '\r' || c = '\x85' || c = '\u2028' || c = '\u2029'

/-- Blanks inside a line. -/
def isBlank (c : Char) : Bool := c = ' ' || c = '\t'

/-- The characters of anchors and tag handles. -/
def isWord (c : Char) : Bool := c.isAlphanum || c = '_' || c = '-'

/-- Brackets and commas end a plain scalar inside brackets. -/
def isFlowIndicator (c : Char) : Bool :=
  c = ',' || c = '[' || c = ']' || c = '\x7b' || c = '\x7d'

/-- The characters a text may hold. -/
def isAllowed (c : Char) : Bool :=
  c = '\t' || c = '\n' || c = '\r' || c = '\x85' || (' ' ≤ c && c ≤ '~') ||
    ('\xa0' ≤ c && c.toNat ≤ 0xfffd) || 0x10000 ≤ c.toNat

/-- A line break as it counts in a scalar: only the two Unicode separators are kept. -/
def breakChar (c : Char) : Char := if c = '\u2028' || c = '\u2029' then c else '\n'

/-- The line break at the front, and what follows. -/
def takeBreak? : List Char → Option (Char × List Char)
  | '\r' :: '\n' :: r => some ('\n', r)
  | c :: r => if isBreak c then some (breakChar c, r) else none
  | [] => none

/-- Whether a text starts with a blank or a line break, or is empty. -/
def endsWord : List Char → Bool
  | [] => true
  | c :: _ => isBlank c || isBreak c

/-- Whether a text starts with three dashes or three points that stand alone. -/
def isMarker : List Char → Bool
  | '-' :: '-' :: '-' :: r => endsWord r
  | '.' :: '.' :: '.' :: r => endsWord r
  | _ => false

/-- What follows the blanks and the comment at the end of a line, and the line break. -/
def afterLine? (cs : List Char) : Option (List Char) :=
  let r := match cs.dropWhile isBlank with
    | '#' :: r => r.dropWhile (!isBreak ·)
    | r => r
  match r with
  | [] => some []
  | r => (takeBreak? r).map Prod.snd

/-! ## Positions -/

/-- A position in a text. -/
structure Cursor where
  rest : List Char
  /-- The number of characters in `rest`. -/
  size : Nat
  line : Nat
  column : Nat
  /-- The number of bytes in front. -/
  index : Nat

/-- Line and column behind some characters. -/
def walk : List Char → Nat × Nat → Nat × Nat
  | [], p => p
  | '\r' :: '\n' :: r, (line, _) => walk r (line + 1, 0)
  | c :: r, (line, column) => walk r (if isBreak c then (line + 1, 0) else (line, column + 1))

/-- The position where a later rest of the same text starts. -/
def Cursor.moveTo (c : Cursor) (rest : List Char) : Cursor :=
  let size := rest.length
  let passed := c.rest.take (c.size - size)
  let (line, column) := walk passed (c.line, c.column)
  ⟨rest, size, line, column, passed.foldl (fun n c => n + c.utf8Size) c.index⟩

end Yaml

end QuantumLowering
