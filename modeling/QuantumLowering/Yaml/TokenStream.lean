/-
  From the text of a YAML stream to its tokens.

  A block opens where something starts to the right of the enclosing block, and ends where
  something starts to the left of it.  A mapping key without its own mark is recognised late, at
  the colon behind it: its place is remembered as a `SimpleKey`, and the tokens that open it are
  put in there.

  * `TokenStream`: the tokens so far, with the open blocks and brackets and the possible keys.
  * `tokens?`: the tokens of a text, if it falls into tokens.
-/
import QuantumLowering.Yaml.Token

namespace QuantumLowering

namespace Yaml

/-- A place where a key may have started. -/
structure SimpleKey where
  /-- The number of tokens in front of it. -/
  number : Nat
  line : Nat
  column : Nat
  index : Nat
  /-- Nothing else can stand there. -/
  required : Bool

/-- What is known in the middle of a text. -/
structure TokenStream where
  cursor : Cursor
  /-- The tokens so far, the latest first. -/
  tokens : List Token
  /-- The number of tokens so far. -/
  count : Nat
  /-- The column of the innermost block, minus one outside of all blocks. -/
  indent : Int
  /-- The columns of the blocks around it, the innermost first. -/
  outer : List Int
  /-- Whether a key may start here. -/
  keyAllowed : Bool
  /-- The possible key between the innermost brackets. -/
  key : Option SimpleKey
  /-- The possible keys between the brackets around, the innermost first. -/
  outerKeys : List (Option SimpleKey)

namespace TokenStream

/-- The start of a text. -/
def start (cs : List Char) : TokenStream :=
  ⟨⟨cs, cs.length, 0, 0, 0⟩, [], 0, -1, [], true, none, []⟩

/-- Whether the place is between brackets. -/
def inFlow (s : TokenStream) : Bool := !s.outerKeys.isEmpty

/-- The column of the place. -/
def column (s : TokenStream) : Nat := s.cursor.column

/-- The same at a later place. -/
def moveTo (s : TokenStream) (rest : List Char) : TokenStream :=
  { s with cursor := s.cursor.moveTo rest }

/-- One more token. -/
def emit (s : TokenStream) (t : Token) : TokenStream :=
  { s with tokens := t :: s.tokens, count := s.count + 1 }

/-- One more token, so many tokens from the start. -/
def insert (s : TokenStream) (number : Nat) (t : Token) : TokenStream :=
  { s with tokens := s.tokens.insertIdx (s.count - number) t, count := s.count + 1 }

/-! ## Blocks -/

/-- The blocks that end before a column: how many, and what is left of them. -/
def unrollTo (column : Int) : Int → List Int → Nat × Int × List Int
  | indent, [] => (0, indent, [])
  | indent, next :: outer =>
    if column < indent then
      let (n, indent, outer) := unrollTo column next outer
      (n + 1, indent, outer)
    else (0, indent, next :: outer)

/-- Ends the blocks to the right of a column. -/
def unroll (s : TokenStream) (column : Int) : TokenStream :=
  if s.inFlow then s
  else
    let (n, indent, outer) := unrollTo column s.indent s.outer
    { s with
      indent
      outer
      tokens := List.replicate n .blockEnd ++ s.tokens
      count := s.count + n }

/-- Opens a block at a column to the right of the innermost block, so many tokens from the
    start. -/
def roll (s : TokenStream) (column number : Nat) (t : Token) : TokenStream :=
  if s.inFlow || (column : Int) ≤ s.indent then s
  else { s.insert number t with indent := column, outer := s.indent :: s.outer }

/-! ## Keys -/

/-- Gives up the possible key, unless it is required. -/
def dropKey? (s : TokenStream) : Option TokenStream :=
  if s.key.any (·.required) then none else some { s with key := none }

/-- Whether a place is too far away to be that of a key. -/
def isStale (s : TokenStream) (k : SimpleKey) : Bool :=
  k.line < s.cursor.line || k.index + 1024 < s.cursor.index

/-- Gives up the keys that are too far away, unless one of them is required. -/
def dropStaleKeys? (s : TokenStream) : Option TokenStream :=
  if (s.key :: s.outerKeys).any (·.any fun k => s.isStale k && k.required) then none
  else
    let keep (k : Option SimpleKey) : Option SimpleKey := k.filter fun k => !s.isStale k
    some { s with key := keep s.key, outerKeys := s.outerKeys.map keep }

/-- Remembers the place of a key, if one may start here. -/
def saveKey? (s : TokenStream) : Option TokenStream :=
  if !s.keyAllowed then some s
  else s.dropKey?.map fun s =>
    let required := !s.inFlow && s.indent == (s.column : Int)
    { s with key := some ⟨s.count, s.cursor.line, s.column, s.cursor.index, required⟩ }

/-- Whether a key may start next. -/
def allowKey (s : TokenStream) (allowed : Bool) : TokenStream := { s with keyAllowed := allowed }

/-! ## Tokens -/

/-- What stands between two tokens. -/
inductive Space
  /-- Nothing yet on this line. -/
  | lineStart
  /-- Blanks. -/
  | blanks
  | comment
deriving DecidableEq

/-- What follows blanks, comments and line breaks, and whether a key may start there.  Tabs are
    no blanks where a key may start in a block; a byte order mark may start a line. -/
def skipSpace (flow : Bool) : Bool → Space → List Char → Bool × List Char
  | allowed, _, [] => (allowed, [])
  | allowed, space, c :: r =>
    if isBreak c then skipSpace flow (allowed || !flow) .lineStart r
    else if space = .comment || c = '#' then skipSpace flow allowed .comment r
    else if c = ' ' || c = '\t' && (flow || !allowed) || space = .lineStart && c = '\ufeff' then
      skipSpace flow allowed .blanks r
    else (allowed, c :: r)

/-- A marker at the start of a line. -/
def marker? (s : TokenStream) (t : Token) (rest : List Char) : Option TokenStream :=
  (s.unroll (-1)).dropKey?.map fun s => ((s.allowKey false).emit t).moveTo rest

/-- An opening bracket. -/
def openFlow? (s : TokenStream) (t : Token) (rest : List Char) : Option TokenStream :=
  s.saveKey?.map fun s =>
    ({ s with key := none, outerKeys := s.key :: s.outerKeys, keyAllowed := true }.emit t).moveTo
      rest

/-- A closing bracket. -/
def closeFlow? (s : TokenStream) (t : Token) (rest : List Char) : Option TokenStream :=
  s.dropKey?.map fun s =>
    let s := match s.outerKeys with
      | key :: outerKeys => { s with key, outerKeys }
      | [] => s
    ((s.allowKey false).emit t).moveTo rest

/-- A comma between brackets. -/
def flowEntry? (s : TokenStream) (rest : List Char) : Option TokenStream :=
  s.dropKey?.map fun s => ((s.allowKey true).emit .flowEntry).moveTo rest

/-- An indicator that opens a block where a key may start. -/
def opening? (s : TokenStream) (block : Token) : Option TokenStream :=
  if s.inFlow then some s
  else if s.keyAllowed then some (s.roll s.column s.count block)
  else none

/-- The dash of an element. -/
def blockEntry? (s : TokenStream) (rest : List Char) : Option TokenStream :=
  ((s.opening? .blockSequenceStart).bind dropKey?).map fun s =>
    ((s.allowKey true).emit .blockEntry).moveTo rest

/-- The mark of a key. -/
def key? (s : TokenStream) (rest : List Char) : Option TokenStream :=
  ((s.opening? .blockMappingStart).bind dropKey?).map fun s =>
    ((s.allowKey (!s.inFlow)).emit .key).moveTo rest

/-- The colon between a key and its value. -/
def value? (s : TokenStream) (rest : List Char) : Option TokenStream :=
  let opened : Option TokenStream :=
    match s.key with
    | some k =>
      let s := { s.insert k.number .key with key := none }
      some ((s.roll k.column k.number .blockMappingStart).allowKey false)
    | none => (s.opening? .blockMappingStart).map fun s => s.allowKey (!s.inFlow)
  opened.map fun s => (s.emit .value).moveTo rest

/-- A token that may be part of a key. -/
def part? (s : TokenStream) (t : Option (Token × List Char)) : Option TokenStream :=
  t.bind fun (t, rest) => s.saveKey?.map fun s => ((s.allowKey false).emit t).moveTo rest

/-- A scalar of a style that may be part of a key. -/
def scalar? (s : TokenStream) (style : ScalarStyle) (t : Option (List Char × List Char)) :
    Option TokenStream :=
  s.part? (t.map fun (text, rest) => (.scalar style (String.ofList text), rest))

/-- A scalar of indented lines. -/
def block? (s : TokenStream) (style : ScalarStyle) (rest : List Char) : Option TokenStream :=
  s.dropKey?.bind fun s =>
    (blockScalar? (style == .folded) s.indent rest).map fun (text, rest) =>
      ((s.allowKey true).emit (.scalar style (String.ofList text))).moveTo rest

/-- A plain scalar; line breaks behind it allow another key. -/
def plain? (s : TokenStream) (cs : List Char) : Option TokenStream :=
  (Yaml.plain? s.inFlow s.indent cs).bind fun (text, broken, rest) =>
    s.saveKey?.map fun s =>
      ((s.allowKey broken).emit (.scalar .plain (String.ofList text))).moveTo rest

/-- Whether a plain scalar may start with a character in front of a rest. -/
def startsPlain (flow : Bool) (c : Char) (rest : List Char) : Bool :=
  if c = '-' then true
  else if c = '?' || c = ':' then !flow && !endsWord rest
  else !(isBlank c || isBreak c || isFlowIndicator c || "#&*!|>\x27\"%@\x60".toList.contains c)

/-- The token at the front of a text that is not empty. -/
def token? (s : TokenStream) (c : Char) (r : List Char) : Option TokenStream :=
  if s.column = 0 && c = '%' then
    (directive? r).bind fun (t, rest) => s.marker? t rest
  else if s.column = 0 && isMarker (c :: r) then
    s.marker? (if c = '-' then .documentStart else .documentEnd) (r.drop 2)
  else if c = '[' then s.openFlow? .flowSequenceStart r
  else if c = '\x7b' then s.openFlow? .flowMappingStart r
  else if c = ']' then s.closeFlow? .flowSequenceEnd r
  else if c = '\x7d' then s.closeFlow? .flowMappingEnd r
  else if c = ',' then s.flowEntry? r
  else if c = '-' && endsWord r then s.blockEntry? r
  else if c = '?' && (s.inFlow || endsWord r) then s.key? r
  else if c = ':' && (s.inFlow || endsWord r) then s.value? r
  else if c = '*' then s.part? ((anchorName? r).map fun (name, rest) => (.alias name, rest))
  else if c = '&' then s.part? ((anchorName? r).map fun (name, rest) => (.anchor name, rest))
  else if c = '!' then s.part? (tag? s.inFlow r)
  else if c = '|' && !s.inFlow then s.block? .literal r
  else if c = '>' && !s.inFlow then s.block? .folded r
  else if c = '\x27' then s.scalar? .singleQuoted (singleQuoted? .empty false r)
  else if c = '"' then s.scalar? .doubleQuoted (doubleQuoted? .empty false none r)
  else if startsPlain s.inFlow c r then s.plain? (c :: r)
  else none

/-- The tokens of the rest of a text of at most so many characters. -/
def run? : Nat → TokenStream → Option (List Token)
  | 0, _ => none
  | fuel + 1, s =>
    let space := if s.column = 0 then Space.lineStart else .blanks
    let (allowed, rest) := skipSpace s.inFlow s.keyAllowed space s.cursor.rest
    ((s.moveTo rest).allowKey allowed).dropStaleKeys?.bind fun s =>
      let s := s.unroll s.column
      match rest with
      | [] => (s.unroll (-1)).dropKey?.map (·.tokens.reverse)
      | c :: r => (s.token? c r).bind (run? fuel)

end TokenStream

/-- The tokens of a text, if it falls into tokens. -/
def tokens? (text : String) : Option (List Token) :=
  let cs := text.toList
  if cs.all isAllowed then (TokenStream.start cs).run? (cs.length + 1) else none

end Yaml

end QuantumLowering
