/-
  The tokens of YAML, and those that are spelled with names: anchors, aliases, tags and
  directives.

  * `Token`: markers, the brackets of blocks and flows, indicators, properties and scalars.
  * `anchorName?`: a name that ends where a name may end.
  * `octets?`: the octets of a tag, some of them escaped.
  * `tag?`: a verbatim tag, a suffix behind a handle, or the lone mark.
  * `directive?`: a version or the meaning of a tag handle, to the end of its line.
-/
import QuantumLowering.Yaml.Scalar

namespace QuantumLowering

namespace Yaml

/-- The octets of a tag; escapes may spell octets that are no text. -/
abbrev Octets := List UInt8

/-- A token of YAML; blocks have brackets too, read off the indentation. -/
inductive Token
  | versionDirective (major minor : Nat)
  /-- The octets a tag handle stands for. -/
  | tagDirective (handle : String) (meaning : Octets)
  | documentStart
  | documentEnd
  | blockSequenceStart
  | blockMappingStart
  | blockEnd
  | flowSequenceStart
  | flowSequenceEnd
  | flowMappingStart
  | flowMappingEnd
  | blockEntry
  | flowEntry
  | key
  | value
  | alias (name : String)
  | anchor (name : String)
  | tag (handle : String) (suffix : Octets)
  | scalar (style : ScalarStyle) (text : String)
deriving DecidableEq, Repr

/-! ## Anchors and aliases -/

/-- Whether an anchor may end in front of a text. -/
def endsAnchor : List Char → Bool
  | [] => true
  | c :: _ => isBlank c || isBreak c || "?:,]\x7d%@\x60".toList.contains c

/-- The name of an anchor or an alias behind its indicator, and what follows. -/
def anchorName? (cs : List Char) : Option (String × List Char) :=
  let name := cs.takeWhile isWord
  let rest := cs.dropWhile isWord
  if name.isEmpty || !endsAnchor rest then none else some (String.ofList name, rest)

/-! ## Tags -/

/-- The characters of a tag; brackets and commas only in a verbatim one. -/
def isTagChar (verbatim : Bool) (c : Char) : Bool :=
  isWord c || ";/?:@&=+$.!~*\x27()%".toList.contains c ||
    verbatim && (c = ',' || c = '[' || c = ']')

/-- The number of octets that continue a character after its leading octet. -/
def continuing? (n : Nat) : Option Nat :=
  if n < 0x80 then some 0
  else if 0xc0 ≤ n ∧ n < 0xe0 then some 1
  else if 0xe0 ≤ n ∧ n < 0xf0 then some 2
  else if 0xf0 ≤ n ∧ n < 0xf8 then some 3
  else none

/-- The octets still missing after one, when so many were missing before it. -/
def missing? (more n : Nat) : Option Nat :=
  if more = 0 then continuing? n
  else if 0x80 ≤ n ∧ n < 0xc0 then some (more - 1)
  else none

/-- The octets of a tag, escaped or not, and what follows; so many escaped octets are missing
    from a character. -/
def octets? (verbatim : Bool) : Nat → List Char → Option (Octets × List Char)
  | more, '%' :: a :: b :: r =>
    (hexValue? a).bind fun a => (hexValue? b).bind fun b =>
      (missing? more (16 * a + b)).bind fun more =>
        (octets? verbatim more r).map fun (octets, rest) =>
          (UInt8.ofNat (16 * a + b) :: octets, rest)
  | _ + 1, _ => none
  | 0, [] => some ([], [])
  | 0, c :: r =>
    if c = '%' then none
    else if isTagChar verbatim c then
      (octets? verbatim 0 r).map fun (octets, rest) => (UInt8.ofNat c.toNat :: octets, rest)
    else some ([], c :: r)

/-- The octets in front of the first null. -/
def untilNull (octets : Octets) : Octets := octets.takeWhile (· ≠ 0)

/-- The octets of a tag up to a null, of which there is at least one, null or not. -/
def someOctets? (verbatim : Bool) (cs : List Char) : Option (Octets × List Char) :=
  ((octets? verbatim 0 cs).filter fun (octets, _) => !octets.isEmpty).map
    fun (octets, rest) => (untilNull octets, rest)

/-- The octets of the exclamation mark. -/
def markOctets : Octets := "!".toUTF8.toList

/-- A tag behind its exclamation mark as a handle and a suffix.  A verbatim tag has no handle,
    a lone mark is a suffix of its own. -/
def tagName? : List Char → Option (Token × List Char)
  | '<' :: r =>
    (someOctets? true r).bind fun (suffix, r) =>
      match r with
      | '>' :: r => some (.tag "" suffix, r)
      | _ => none
  | cs =>
    let word := String.ofList (cs.takeWhile isWord)
    match cs.dropWhile isWord with
    | '!' :: r =>
      (someOctets? false r).map fun (suffix, r) => (.tag ("!" ++ word ++ "!") suffix, r)
    | r => (octets? false 0 r).map fun (more, r) =>
        let suffix := word.toUTF8.toList ++ untilNull more
        (if suffix.isEmpty then .tag "" markOctets else .tag "!" suffix, r)

/-- A tag behind its exclamation mark; a blank or a line break ends it, and inside brackets a
    comma. -/
def tag? (flow : Bool) (cs : List Char) : Option (Token × List Char) :=
  (tagName? cs).filter fun (_, r) => flow && r.head? == some ',' || endsWord r

/-! ## Directives -/

/-- A number of at most nine digits, and what follows. -/
def versionPart? (cs : List Char) : Option (Nat × List Char) :=
  let digits := cs.takeWhile Char.isDigit
  if digits.isEmpty || 9 < digits.length then none
  else some (decimalValue digits, cs.dropWhile Char.isDigit)

/-- The two parts of a version. -/
def version? (cs : List Char) : Option (Token × List Char) :=
  (versionPart? cs).bind fun (major, r) =>
    match r with
    | '.' :: r => (versionPart? r).map fun (minor, r) => (.versionDirective major minor, r)
    | _ => none

/-- The handle that a directive gives a meaning: a mark, or a name between two. -/
def tagHandle? : List Char → Option (String × List Char)
  | '!' :: r =>
    let word := String.ofList (r.takeWhile isWord)
    match r.dropWhile isWord with
    | '!' :: r => some ("!" ++ word ++ "!", r)
    | r => if word = "" then some ("!", r) else none
  | _ => none

/-- A handle and its meaning. -/
def handleMeaning? (cs : List Char) : Option (Token × List Char) :=
  (tagHandle? cs).bind fun (handle, r) =>
    if !(r.head?.any isBlank) then none
    else (someOctets? true (r.dropWhile isBlank)).bind fun (meaning, r) =>
      if endsWord r then some (.tagDirective handle meaning, r) else none

/-- A directive behind its per cent sign, to the end of its line. -/
def directive? (cs : List Char) : Option (Token × List Char) :=
  let rest := cs.dropWhile isWord
  if !endsWord rest then none
  else
    let argument := rest.dropWhile isBlank
    let directive :=
      match String.ofList (cs.takeWhile isWord) with
      | "YAML" => version? argument
      | "TAG" => handleMeaning? argument
      | _ => none
    directive.bind fun (token, r) => (afterLine? r).map (token, ·)

end Yaml

end QuantumLowering
