/-
  Fingerprints of texts.

  * `Fingerprint`: gives each text a number of 64 bits.  Lowering only asks for this number, so
    nothing else is known about it: different texts may have the same fingerprint.
  * `Fingerprint.digits`: the number in the names that are generated from it.
-/

namespace QuantumLowering

/-- A way to give texts numbers of 64 bits. -/
class Fingerprint where
  ofText : String → UInt64

/-- The hexadecimal digits of the fingerprint of a text. -/
def Fingerprint.digits [Fingerprint] (text : String) : String :=
  String.ofList (Nat.toDigits 16 (ofText text).toNat)

end QuantumLowering
