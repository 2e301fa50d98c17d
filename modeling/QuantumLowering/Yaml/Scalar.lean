/-
  The scalars of YAML: their styles and how their texts are read.

  * `Gap`: blanks and line breaks between the words of a scalar, and what they amount to.
  * `singleQuoted?`, `doubleQuoted?`: the text up to the closing quote.
  * `plain?`: words up to an indicator, a comment, a marker or a line that is not indented.
  * `blockScalar?`: indented lines, kept or folded, with their last line breaks chomped.

  Every reader gives the text and what follows it.
-/
import QuantumLowering.Text.Digits
import QuantumLowering.Yaml.Cursor

namespace QuantumLowering

namespace Yaml

/-- How a scalar is written. -/
inductive ScalarStyle
  | plain
  | singleQuoted
  | doubleQuoted
  | literal
  | folded
deriving DecidableEq, Repr

/-! ## Gaps -/

/-- What stands between two words. -/
inductive Gap
  /-- Blanks inside a line. -/
  | blanks (text : List Char)
  /-- Line breaks; the first is not known if it is escaped. -/
  | breaks (first : Option Char) (more : List Char)

namespace Gap

/-- Nothing. -/
def empty : Gap := blanks []

/-- One more blank; blanks next to line breaks do not count. -/
def addBlank (c : Char) : Gap → Gap
  | blanks text => blanks (text ++ [c])
  | g => g

/-- One more line break. -/
def addBreak (c : Char) : Gap → Gap
  | blanks _ => breaks (some c) []
  | breaks first more => breaks first (more ++ [c])

/-- Whether there is a line break. -/
def isBroken : Gap → Bool
  | blanks _ => false
  | breaks .. => true

/-- The text of a gap: a lone line break is a space, the first of several is dropped. -/
def text : Gap → List Char
  | blanks text => text
  | breaks none more => more
  | breaks (some c) more =>
    if c = '\n' then (if more.isEmpty then [' '] else more) else c :: more

end Gap

/-- A text put in front of what is read next. -/
def behind (text : List Char) (x : Option (List Char × List Char)) :
    Option (List Char × List Char) :=
  x.map fun (more, rest) => (text ++ more, rest)

/-! ## Quoted scalars -/

/-- The text up to a single quote; two of them stand for one. -/
def singleQuoted? (gap : Gap) (lineStart : Bool) : List Char → Option (List Char × List Char)
  | [] => none
  | '\x27' :: '\x27' :: r => behind (gap.text ++ ['\x27']) (singleQuoted? .empty false r)
  | '\x27' :: r => some (gap.text, r)
  | '\r' :: '\n' :: r => singleQuoted? (gap.addBreak '\n') true r
  | c :: r =>
    if isBlank c then singleQuoted? (gap.addBlank c) false r
    else if isBreak c then singleQuoted? (gap.addBreak (breakChar c)) true r
    else if lineStart && isMarker (c :: r) then none
    else behind (gap.text ++ [c]) (singleQuoted? .empty false r)

/-- The character of a one-letter escape. -/
def simpleEscape? : Char → Option Char
  | '0' => some (Char.ofNat 0)
  | 'a' => some (Char.ofNat 7)
  | 'b' => some (Char.ofNat 8)
  | 't' => some '\t'
  | '\t' => some '\t'
  | 'n' => some '\n'
  | 'v' => some (Char.ofNat 11)
  | 'f' => some (Char.ofNat 12)
  | 'r' => some '\r'
  | 'e' => some (Char.ofNat 27)
  | ' ' => some ' '
  | '"' => some '"'
  | '/' => some '/'
  | '\\' => some '\\'
  | 'N' => some '\x85'
  | '_' => some '\xa0'
  | 'L' => some '\u2028'
  | 'P' => some '\u2029'
  | _ => none

/-- The number of hexadecimal digits of a numeric escape. -/
def escapeLength? : Char → Option Nat
  | 'x' => some 2
  | 'u' => some 4
  | 'U' => some 8
  | _ => none

/-- The text up to a double quote, with escapes; inside a numeric escape, so many digits are
    to come after the digits that make up the value. -/
def doubleQuoted? (gap : Gap) (lineStart : Bool) :
    Option (Nat × Nat) → List Char → Option (List Char × List Char)
  | _, [] => none
  | some (digits, value), c :: r =>
    (hexValue? c).bind fun d =>
      let value := 16 * value + d
      if 1 < digits then doubleQuoted? .empty false (some (digits - 1, value)) r
      else if value.isValidChar then
        behind [Char.ofNat value] (doubleQuoted? .empty false none r)
      else none
  | none, '"' :: r => some (gap.text, r)
  | none, '\\' :: '\r' :: '\n' :: r =>
    behind gap.text (doubleQuoted? (.breaks none []) true none r)
  | none, '\\' :: c :: r =>
    if isBreak c then behind gap.text (doubleQuoted? (.breaks none []) true none r)
    else match simpleEscape? c with
      | some e => behind (gap.text ++ [e]) (doubleQuoted? .empty false none r)
      | none => (escapeLength? c).bind fun n =>
          behind gap.text (doubleQuoted? .empty false (some (n, 0)) r)
  | none, '\r' :: '\n' :: r => doubleQuoted? (gap.addBreak '\n') true none r
  | none, c :: r =>
    if isBlank c then doubleQuoted? (gap.addBlank c) false none r
    else if isBreak c then doubleQuoted? (gap.addBreak (breakChar c)) true none r
    else if c = '\\' || lineStart && isMarker (c :: r) then none
    else behind (gap.text ++ [c]) (doubleQuoted? .empty false none r)

/-! ## Plain scalars -/

/-- Whether a text starts with a character that must not follow a colon inside brackets. -/
def startsFlowIndicator : List Char → Bool
  | c :: _ => isFlowIndicator c || c = '?'
  | [] => false

/-- A word up to a blank or an indicator, inside brackets or not. -/
def plainWord? (flow : Bool) : List Char → Option (List Char × List Char)
  | [] => some ([], [])
  | c :: r =>
    if isBlank c || isBreak c then some ([], c :: r)
    else if flow && c = ':' && startsFlowIndicator r then none
    else if c = ':' && endsWord r || flow && isFlowIndicator c then some ([], c :: r)
    else behind [c] (plainWord? flow r)

/-- The gap before the next word, and the column of that word if the gap has a line break;
    up to the indentation there are no tabs. -/
def plainGap? (indent : Int) : Gap → Nat → List Char → Option (Gap × Nat × List Char)
  | gap, column, [] => some (gap, column, [])
  | gap, _, '\r' :: '\n' :: r => plainGap? indent (gap.addBreak '\n') 0 r
  | gap, column, c :: r =>
    if isBreak c then plainGap? indent (gap.addBreak (breakChar c)) 0 r
    else if isBlank c then
      if gap.isBroken && c = '\t' && column ≤ indent then none
      else plainGap? indent (gap.addBlank c) (column + 1) r
    else some (gap, column, c :: r)

/-- The words of a plain scalar, of which there are at most so many; also whether line breaks
    follow the last one. -/
def plainWords? (flow : Bool) (indent : Int) :
    Nat → Gap → Bool → List Char → Option (List Char × Bool × List Char)
  | 0, _, _, _ => none
  | fuel + 1, gap, lineStart, cs =>
    if lineStart && isMarker cs || cs.head? == some '#' then some ([], gap.isBroken, cs)
    else (plainWord? flow cs).bind fun (word, r) =>
      if word.isEmpty then some ([], gap.isBroken, r)
      else
        let text := gap.text ++ word
        match r with
        | [] => some (text, false, [])
        | c :: _ =>
          if isBlank c || isBreak c then
            (plainGap? indent .empty 0 r).bind fun (gap, column, r) =>
              if gap.isBroken && !flow && column ≤ indent then some (text, true, r)
              else (plainWords? flow indent fuel gap (gap.isBroken && column = 0) r).map
                fun (more, broken, r) => (text ++ more, broken, r)
          else some (text, false, r)

/-- A plain scalar inside brackets or in a block of an indentation; also whether line breaks
    follow it. -/
def plain? (flow : Bool) (indent : Int) (cs : List Char) :
    Option (List Char × Bool × List Char) :=
  plainWords? flow indent (cs.length + 1) .empty false cs

/-! ## Block scalars -/

/-- Which line breaks at the end of a block scalar count. -/
inductive Chomping
  /-- None. -/
  | strip
  /-- One. -/
  | clip
  /-- All. -/
  | keep

/-- The chomping that a sign asks for. -/
def Chomping.ofChar? : Char → Option Chomping
  | '-' => some strip
  | '+' => some keep
  | _ => none

/-- The indentation that a digit asks for. -/
def increment? (c : Char) : Option Nat :=
  if '1' ≤ c ∧ c ≤ '9' then some (c.toNat - '0'.toNat) else none

/-- Chomping and indentation, in either order, in front of a block scalar. -/
def blockHeader : List Char → Chomping × Option Nat × List Char
  | [] => (.clip, none, [])
  | c :: r =>
    match Chomping.ofChar? c, increment? c with
    | some chomping, _ =>
      match r.head?.bind increment? with
      | some n => (chomping, some n, r.tail)
      | none => (chomping, none, r)
    | none, some n =>
      match r.head?.bind Chomping.ofChar? with
      | some chomping => (chomping, some n, r.tail)
      | none => (.clip, some n, r)
    | none, none => (.clip, none, c :: r)

/-- Empty lines at the start of a line, and the indentation after them: the column reached, the
    greatest column on the way, the line breaks, and what follows.  Spaces count up to the
    limit, if there is one, and until then there are no tabs. -/
def emptyLines? (limit : Option Nat) :
    Nat → Nat → List Char → Option (Nat × Nat × List Char × List Char)
  | column, deepest, [] => some (column, max deepest column, [], [])
  | column, deepest, c :: r =>
    let inside := limit.all (column < ·)
    if inside && c = ' ' then emptyLines? limit (column + 1) deepest r
    else if inside && c = '\t' then none
    else
      let deepest := max deepest column
      match c, r with
      | '\r', '\n' :: r =>
        (emptyLines? limit 0 deepest r).map fun (column, deepest, breaks, rest) =>
          (column, deepest, '\n' :: breaks, rest)
      | c, r =>
        if isBreak c then
          (emptyLines? limit 0 deepest r).map fun (column, deepest, breaks, rest) =>
            (column, deepest, breakChar c :: breaks, rest)
        else some (column, deepest, [], c :: r)

/-- The lines of a block scalar, at most so many.  In front of them stand the line break of the
    line before, empty lines, and the column reached; `led` says that the line before starts
    with a blank. -/
def blockLines? (folded : Bool) (chomping : Chomping) (indent : Nat) :
    Nat → Option Char → List Char → Bool → Nat → List Char → Option (List Char × List Char)
  | 0, _, _, _, _, _ => none
  | fuel + 1, first, more, led, column, cs =>
    if column = indent && !cs.isEmpty then
      let blank := cs.head?.any isBlank
      let joint :=
        if folded && first == some '\n' && !led && !blank then
          (if more.isEmpty then [' '] else more)
        else first.toList ++ more
      let line := cs.takeWhile (!isBreak ·)
      let r := cs.dropWhile (!isBreak ·)
      let next := takeBreak? r
      (emptyLines? (some indent) 0 0 ((next.map Prod.snd).getD [])).bind
        fun (column, _, more, r) =>
          behind (joint ++ line)
            (blockLines? folded chomping indent fuel (next.map Prod.fst) more blank column r)
    else match chomping with
      | .strip => some ([], cs)
      | .clip => some (first.toList, cs)
      | .keep => some (first.toList ++ more, cs)

/-- A block scalar behind its indicator, in a block of an indentation. -/
def blockScalar? (folded : Bool) (indent : Int) (cs : List Char) :
    Option (List Char × List Char) :=
  let (chomping, increment, r) := blockHeader cs
  let limit := increment.map fun n => indent.toNat + n
  (afterLine? r).bind fun r =>
    (emptyLines? limit 0 0 r).bind fun (column, deepest, breaks, r) =>
      let limit := limit.getD (max (max deepest (indent + 1).toNat) 1)
      blockLines? folded chomping limit (r.length + 1) none breaks false column r

end Yaml

end QuantumLowering
