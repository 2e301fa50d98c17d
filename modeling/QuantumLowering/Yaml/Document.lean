/-
  The documents of YAML: trees of nodes read from tokens.

  * `Node`: a scalar, a sequence, a mapping, or an alias of another node.
  * `Anchors`: the nodes that aliases stand for.
  * `Document.only?`: the document of a stream that holds no other one.

  An anchor gets the number of names known before it.  A name that is given again keeps its
  place among the names, so the next new name gets the number of the second giving, and the
  node last put under a number is the one that aliases find there.
-/
import QuantumLowering.Yaml.TokenStream

namespace QuantumLowering

namespace Yaml

/-- A scalar with its tag. -/
structure Scalar where
  tag : Option Octets
  style : ScalarStyle
  text : String
deriving DecidableEq, Repr

/-- Nothing written. -/
def Scalar.empty : Scalar := ⟨none, .plain, ""⟩

/-- A node of a document. -/
inductive Node
  | scalar (s : Scalar)
  | sequence (elements : List Node)
  | mapping (pairs : List (Node × Node))
  /-- The node under a number. -/
  | alias (number : Nat)

/-- Nothing written. -/
def Node.empty : Node := .scalar .empty

/-- The names given to nodes. -/
structure Anchors where
  /-- The number each name stands for. -/
  numbers : List (String × Nat)
  /-- The scalar under a number, or nothing for a collection; the last one put there first. -/
  scalars : List (Nat × Option Scalar)

namespace Anchors

/-- No names. -/
def empty : Anchors := ⟨[], []⟩

/-- Gives a name to a scalar or a collection. -/
def give (a : Anchors) (name : String) (scalar : Option Scalar) : Anchors :=
  let number := a.numbers.length
  ⟨(name, number) :: a.numbers.filter (·.1 ≠ name), (number, scalar) :: a.scalars⟩

/-- The number a name stands for. -/
def number? (a : Anchors) (name : String) : Option Nat := a.numbers.lookup name

end Anchors

/-- A document; one without a root is an empty stream. -/
structure Document where
  root : Option Node
  anchors : Anchors

/-- The scalar that a node is or stands for. -/
def Document.scalar? (d : Document) : Node → Option Scalar
  | .scalar s => some s
  | .alias n => (d.anchors.scalars.lookup n).join
  | _ => none

/-! ## Reading tokens -/

/-- What is known while tokens are read. -/
structure Reading where
  tokens : List Token
  anchors : Anchors
  /-- What tag handles stand for. -/
  handles : List (String × Octets)

/-- A step that reads some tokens or fails. -/
abbrev Reader := StateT Reading Option

namespace Reader

/-- Failure. -/
def fail {α : Type} : Reader α := fun _ => none

/-- The next token. -/
def peek : Reader (Option Token) := return (← get).tokens.head?

/-- Passes over the next token. -/
def skip : Reader Unit := modify fun s => { s with tokens := s.tokens.tail }

/-- Passes over the next token, if it is this one. -/
def skipIf (t : Token) : Reader Bool := do
  if (← peek) == some t then
    skip
    return true
  else return false

/-- The octets of a tag. -/
def tagOctets (handle : String) (suffix : Octets) : Reader Octets := do
  if handle = "" then return suffix
  else match (← get).handles.lookup handle with
    | some meaning => return meaning ++ suffix
    | none => fail

/-- The anchor in front of a node, if there is one. -/
def anchor : Reader (Option String) := do
  match ← peek with
  | some (.anchor name) =>
    skip
    return some name
  | _ => return none

/-- The tag in front of a node, if there is one. -/
def tag : Reader (Option (String × Octets)) := do
  match ← peek with
  | some (.tag handle suffix) =>
    skip
    return some (handle, suffix)
  | _ => return none

/-- Gives the name in front of a node to it. -/
def give (name : Option String) (scalar : Option Scalar) : Reader Unit :=
  match name with
  | some name => modify fun s => { s with anchors := s.anchors.give name scalar }
  | none => return ()

/-- A scalar with its name. -/
def named (name : Option String) (s : Scalar) : Reader Node := do
  give name (some s)
  return .scalar s

mutual
/-- A node that is not an alias, of at most so many steps.  Outside of brackets it may be a
    block, and as a value or key of a block also a sequence that is not indented. -/
def node (block unindented : Bool) : Nat → Reader Node
  | 0 => fail
  | fuel + 1 => do
    if let some (.alias name) ← peek then
      match (← get).anchors.number? name with
      | some number =>
        skip
        return .alias number
      | none => fail
    else
      let first ← anchor
      let tagged ← tag
      let name ← if first.isSome then pure first else anchor
      let tag ← tagged.mapM fun (handle, suffix) => tagOctets handle suffix
      match ← peek with
      | some (.scalar style text) =>
        skip
        named name ⟨tag, style, text⟩
      | some .blockEntry =>
        if unindented then
          give name none
          return .sequence (← unindentedElements fuel)
        else if name.isSome || tag.isSome then named name ⟨tag, .plain, ""⟩
        else fail
      | some .flowSequenceStart =>
        skip
        give name none
        return .sequence (← flowElements true fuel)
      | some .flowMappingStart =>
        skip
        give name none
        return .mapping (← flowPairs true fuel)
      | some .blockSequenceStart =>
        if block then
          skip
          give name none
          return .sequence (← blockElements fuel)
        else if name.isSome || tag.isSome then named name ⟨tag, .plain, ""⟩
        else fail
      | some .blockMappingStart =>
        if block then
          skip
          give name none
          return .mapping (← blockPairs fuel)
        else if name.isSome || tag.isSome then named name ⟨tag, .plain, ""⟩
        else fail
      | _ =>
        if name.isSome || tag.isSome then named name ⟨tag, .plain, ""⟩
        else fail

/-- A node, or nothing written in front of one of these tokens. -/
def nodeUnless (ends : List Token) (block unindented : Bool) : Nat → Reader Node
  | 0 => fail
  | fuel + 1 => do
    if (← peek).any ends.contains then return .empty
    else node block unindented fuel

/-- The elements of an indented sequence. -/
def blockElements : Nat → Reader (List Node)
  | 0 => fail
  | fuel + 1 => do
    if ← skipIf .blockEnd then return []
    else if ← skipIf .blockEntry then
      let x ← nodeUnless [.blockEntry, .blockEnd] true false fuel
      return x :: (← blockElements fuel)
    else fail

/-- The elements of a sequence that is not indented. -/
def unindentedElements : Nat → Reader (List Node)
  | 0 => fail
  | fuel + 1 => do
    if ← skipIf .blockEntry then
      let x ← nodeUnless [.blockEntry, .key, .value, .blockEnd] true false fuel
      return x :: (← unindentedElements fuel)
    else return []

/-- The pairs of a block. -/
def blockPairs : Nat → Reader (List (Node × Node))
  | 0 => fail
  | fuel + 1 => do
    if ← skipIf .blockEnd then return []
    else if ← skipIf .key then
      let ends := [.key, .value, .blockEnd]
      let k ← nodeUnless ends true true fuel
      let v ← if ← skipIf .value then nodeUnless ends true true fuel else pure .empty
      return (k, v) :: (← blockPairs fuel)
    else fail

/-- The elements between brackets; a key makes a pair of its own. -/
def flowElements (first : Bool) : Nat → Reader (List Node)
  | 0 => fail
  | fuel + 1 => do
    if ← skipIf .flowSequenceEnd then return []
    else
      let separated ← if first then pure true else skipIf .flowEntry
      if !separated then fail
      else if ← skipIf .key then
        let pair ← flowPair fuel
        return .mapping [pair] :: (← flowElements false fuel)
      else if ← skipIf .flowSequenceEnd then return []
      else
        let x ← node false false fuel
        return x :: (← flowElements false fuel)

/-- The only pair of an element, behind the mark of its key. -/
def flowPair : Nat → Reader (Node × Node)
  | 0 => fail
  | fuel + 1 => do
    let t ← peek
    let ends := [.value, .flowEntry, .flowSequenceEnd]
    let k ←
      if t.any ends.contains then do
        skip
        pure .empty
      else node false false fuel
    let v ←
      if ← skipIf .value then nodeUnless [.flowEntry, .flowSequenceEnd] false false fuel
      else pure .empty
    return (k, v)

/-- The pairs between braces; a key without its mark has no value. -/
def flowPairs (first : Bool) : Nat → Reader (List (Node × Node))
  | 0 => fail
  | fuel + 1 => do
    if ← skipIf .flowMappingEnd then return []
    else
      let separated ← if first then pure true else skipIf .flowEntry
      if !separated then fail
      else if ← skipIf .key then
        let k ← nodeUnless [.value, .flowEntry, .flowMappingEnd] false false fuel
        let v ←
          if ← skipIf .value then nodeUnless [.flowEntry, .flowMappingEnd] false false fuel
          else pure .empty
        return (k, v) :: (← flowPairs false fuel)
      else if ← skipIf .flowMappingEnd then return []
      else
        let k ← node false false fuel
        return (k, .empty) :: (← flowPairs false fuel)
end

/-- The directives in front of a document: at most one version, which is 1.1 or 1.2, and one
    meaning for each handle. -/
def directives : Nat → Bool → Reader Unit
  | 0, _ => fail
  | fuel + 1, versioned => do
    match ← peek with
    | some (.versionDirective major minor) =>
      if versioned || major ≠ 1 || (minor ≠ 1 && minor ≠ 2) then fail
      else
        skip
        directives fuel true
    | some (.tagDirective handle meaning) =>
      if ((← get).handles.lookup handle).isSome then fail
      else
        skip
        modify fun s => { s with handles := (handle, meaning) :: s.handles }
        directives fuel versioned
    | _ => return ()

/-- The meanings that handles have unless a directive says otherwise. -/
def standardHandles : List (String × Octets) :=
  [("!", markOctets), ("!!", "tag:yaml.org,2002:".toUTF8.toList)]

/-- The root of a document; directives need a marker behind them. -/
def root (fuel : Nat) : Reader (Option Node) := do
  match ← peek with
  | none => return none
  | some t =>
    directives fuel false
    modify fun s => { s with handles := s.handles ++ standardHandles }
    if ← skipIf .documentStart then
      match ← peek with
      | none | some .documentStart | some .documentEnd | some (.versionDirective ..)
      | some (.tagDirective ..) => return some .empty
      | _ => some <$> node true false fuel
    else match t with
      | .versionDirective .. | .tagDirective .. => fail
      | _ => some <$> node true false fuel

end Reader

/-- The document of a stream that holds no other one. -/
def Document.only? (tokens : List Token) : Option Document :=
  match Reader.root (3 * tokens.length + 3) ⟨tokens, .empty, []⟩ with
  | some (root, s) =>
    if s.tokens.all (· == .documentEnd) then some ⟨root, s.anchors⟩ else none
  | none => none

/-- The document of a text that holds no other one. -/
def Document.ofText? (text : String) : Option Document := (tokens? text).bind Document.only?

end Yaml

end QuantumLowering
