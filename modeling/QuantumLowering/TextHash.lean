/-
  A hash of texts, as the program that lowers from the command line uses it.

  * `TextHash.ofBytes`: multiplies two words that start from fixed seeds and take in the bytes,
    sixteen at a time; short lists are read from both ends.
  * `TextHash.ofText`: the bytes of a text and one byte that ends it.
-/
import QuantumLowering.Fingerprint

namespace QuantumLowering

namespace TextHash

/-- The two halves of the product of two words, mixed. -/
def mix (a b : UInt64) : UInt64 :=
  let product := a.toNat * b.toNat
  .ofNat product ^^^ .ofNat (product >>> 64)

/-- The word whose lowest byte comes first. -/
def word (bytes : List UInt8) : UInt64 := bytes.foldr (fun b w => w <<< 8 ||| b.toUInt64) 0

/-- Takes in as many blocks of sixteen bytes. -/
def absorb : Nat → UInt64 × UInt64 → List UInt8 → UInt64 × UInt64
  | 0, state, _ => state
  | blocks + 1, (a, b), bytes =>
    let first := word (bytes.take 8)
    let second := word ((bytes.drop 8).take 8)
    absorb blocks (b, mix (a ^^^ first) (0xa4093822299f31d0 ^^^ second)) (bytes.drop 16)

/-- The two words that the bytes have as their first and last ones, which may overlap. -/
def ends (bytes : List UInt8) : UInt64 × UInt64 :=
  let size := bytes.length
  if 8 ≤ size then (word (bytes.take 8), word (bytes.drop (size - 8)))
  else if 4 ≤ size then (word (bytes.take 4), word (bytes.drop (size - 4)))
  else (word (bytes.take 1), word [bytes.getD (size / 2) 0, bytes.getLastD 0])

/-- The hash of a list of bytes.  Of a long one the last sixteen bytes are taken in at the end. -/
def ofBytes (bytes : List UInt8) : UInt64 :=
  let (a, b) := absorb ((bytes.length - 1) / 16) (0x243f6a8885a308d3, 0x13198a2e03707344) bytes
  let (first, last) := ends (bytes.drop (bytes.length - 16))
  mix (a ^^^ first) (b ^^^ last) ^^^ .ofNat bytes.length

/-- The hash of a text. -/
def ofText (s : String) : UInt64 :=
  let bits := (ofBytes s.toUTF8.data.toList * 0xf1357aea2e62a9c5 + 0xff) * 0xf1357aea2e62a9c5
  bits <<< 26 ||| bits >>> 38

end TextHash

instance : Fingerprint := ⟨TextHash.ofText⟩

/-- Two texts with the same hash. -/
example : TextHash.ofText "[u@2, aaaaaaaaaa3libaaaaaaaaaaaapar4xpbaaaaaaaaawIJb85Ud8rIhK]@2" =
    TextHash.ofText "u@2" := by decide +kernel

end QuantumLowering
