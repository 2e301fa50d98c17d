/-
  A 64-bit floating-point number as an exact number.

  * `Double`: not a number, an infinity, or `mantissa * 2 ^ exponent` with a sign.
  * `Double.ofFloat`: reads the sign, the 11 exponent bits and the 52 fraction bits.
-/

namespace QuantumLowering

/-- A floating-point number by its class and exact value. -/
inductive Double
  | nan
  | infinite (negative : Bool)
  /-- The value `mantissa * 2 ^ exponent`, negated if asked for. -/
  | finite (negative : Bool) (mantissa : Nat) (exponent : Int)
deriving DecidableEq, Repr

namespace Double

/-- Splits the bits of a number into sign, exponent and fraction. -/
def ofBits (bits : UInt64) : Double :=
  let negative := bits >>> 63 == 1
  let biased := ((bits >>> 52) &&& 0x7ff).toNat
  let fraction := (bits &&& 0xfffffffffffff).toNat
  if biased = 0x7ff then
    if fraction = 0 then infinite negative else nan
  else if biased = 0 then finite negative fraction (-1074)
  else finite negative (fraction + 0x10000000000000) (biased - 1075)

/-- The exact value of a number. -/
def ofFloat (x : Float) : Double := ofBits x.toBits

end Double

end QuantumLowering
