/-
  Reading doubles from decimal text.

  * `double?`: digits with an optional point, exponent and sign, or the words for infinity
    and for no number, in which case does not matter.

  A number beyond every double is infinite and one below every double is zero; this is decided
  from the number of digits and the exponent before any power of ten is formed.
-/
import QuantumLowering.Text.Digits

namespace QuantumLowering

namespace Decimal

/-- The integer of decimal digits with an optional sign. -/
def exponent? (cs : List Char) : Option Int :=
  let (negative, digits) := match cs with
    | '-' :: r => (true, r)
    | '+' :: r => (false, r)
    | r => (false, r)
  if digits.isEmpty || !digits.all Char.isDigit then none
  else
    let n : Int := decimalValue digits
    some (if negative then -n else n)

/-- The double nearest to some digits times a power of ten. -/
def scaled (digits : List Char) (exponent : Int) : Float :=
  let m := decimalValue digits
  let magnitude := exponent + (toString m).length
  if m = 0 ∨ magnitude < -400 then 0.0
  else if 400 < magnitude then 1.0 / 0.0
  else if exponent < 0 then Float.ofScientific m true (-exponent).toNat
  else Float.ofScientific m false exponent.toNat

/-- The double that digits with an optional point and exponent denote. -/
def unsigned? (cs : List Char) : Option Float :=
  let whole := cs.takeWhile Char.isDigit
  let (part, rest) := match cs.dropWhile Char.isDigit with
    | '.' :: r => (r.takeWhile Char.isDigit, r.dropWhile Char.isDigit)
    | r => ([], r)
  let shift : Option Int := match rest with
    | [] => some 0
    | c :: r => if c = 'e' ∨ c = 'E' then exponent? r else none
  if whole.isEmpty && part.isEmpty then none
  else shift.map fun e => scaled (whole ++ part) (e - part.length)

/-- The double that a text without a sign denotes. -/
def magnitude? (cs : List Char) : Option Float :=
  match String.ofList (cs.map Char.toLower) with
  | "inf" | "infinity" => some (1.0 / 0.0)
  | "nan" => some (0.0 / 0.0)
  | _ => unsigned? cs

/-- The double that a text denotes. -/
def double? (s : String) : Option Float :=
  match s.toList with
  | '-' :: r => (magnitude? r).map fun x => -x
  | '+' :: r => magnitude? r
  | r => magnitude? r

end Decimal

end QuantumLowering
