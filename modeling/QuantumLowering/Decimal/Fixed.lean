/-
  Decimals with a fixed number of places.

  * `roundHalfEven`: the quotient of two naturals rounded to the nearest whole number, a half
    to the even neighbour.
  * `Double.fixedText`: the value rounded to so many places; a value that rounds to zero has
    no sign.
-/
import QuantumLowering.Decimal.Shortest

namespace QuantumLowering

/-- `n / d` to the nearest whole number; a half goes to the even neighbour. -/
def roundHalfEven (n d : Nat) : Nat :=
  let quotient := n / d
  let twice := 2 * (n % d)
  if twice < d then quotient
  else if d < twice then quotient + 1
  else if quotient % 2 = 0 then quotient else quotient + 1

/-- The value `m * 2 ^ q` as a number of units of `10 ^ -places`. -/
def unitsOfPlaces (places m : Nat) (q : Int) : Nat :=
  roundHalfEven (m * Nat.pow 10 places <<< q.toNat) (1 <<< (-q).toNat)

/-- The value with so many places after the point. -/
def Double.fixedText (places : Nat) : Double → String
  | nan => "NaN"
  | infinite negative => if negative then "-inf" else "inf"
  | finite negative m q =>
    let units := unitsOfPlaces places m q
    let scale := Nat.pow 10 places
    (if negative && units != 0 then "-" else "") ++
      toString (units / scale) ++ "." ++ Decimal.padLeft places (toString (units % scale))

end QuantumLowering
