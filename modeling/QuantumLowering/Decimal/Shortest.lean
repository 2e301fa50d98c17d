/-
  The shortest decimal that reads back as a given floating-point number.

  * `Decimal`: the value `digits * 10 ^ exponent`.
  * `Interval`: the reals that round to `m * 2 ^ q`, their bounds in units of `2 ^ (q - 2)`.
  * `Decimal.shortest`: tries the decimal grids from the coarsest down, on each grid only the
    two neighbours of the value; the first grid with a neighbour in the interval wins, and
    of two hits the nearer one.
  * `Decimal.positional`: the digits with a point and without an exponent.
  * `Float.shortestText`: the text of a floating-point number.

  A grid with a point in the interval has one of the value's two neighbours in it, so no
  coarser decimal reads back.
-/
import QuantumLowering.Decimal.Double

namespace QuantumLowering

/-- The value `digits * 10 ^ exponent`. -/
structure Decimal where
  digits : Nat
  exponent : Int
deriving DecidableEq, Repr

/-- The reals that round to a positive number, in units of `2 ^ unit`. -/
structure Interval where
  low : Nat
  value : Nat
  high : Nat
  unit : Int
  /-- Whether the bounds themselves round to the number. -/
  closed : Bool

namespace Interval

/-- The interval of `m * 2 ^ q`: half the gap on each side, where the gap below the smallest
    number of a binade is half as wide; the bounds belong to it when `m` is even. -/
def around (m : Nat) (q : Int) : Interval :=
  { low := if m = 0x10000000000000 ∧ -1074 < q then 4 * m - 1 else 4 * m - 2
    value := 4 * m
    high := 4 * m + 2
    unit := q - 2
    closed := m % 2 = 0 }

/-- The number `n` of units on the common scale with the powers `10 ^ e`. -/
def units (i : Interval) (e : Int) (n : Nat) : Nat :=
  n * Nat.pow 10 (-e).toNat <<< i.unit.toNat

/-- The number `d * 10 ^ e` on the same scale. -/
def point (i : Interval) (e : Int) (d : Nat) : Nat :=
  d * Nat.pow 10 e.toNat <<< (-i.unit).toNat

/-- Whether `d * 10 ^ e` lies in the interval. -/
def holds (i : Interval) (e : Int) (d : Nat) : Bool :=
  let x := i.point e d
  let low := i.units e i.low
  let high := i.units e i.high
  if i.closed then low ≤ x && x ≤ high else low < x && x < high

/-- The greatest multiple of `10 ^ e` that is at most the value. -/
def floor (i : Interval) (e : Int) : Nat := i.units e i.value / i.point e 1

/-- The neighbour of the value on the grid of `10 ^ e` that lies in the interval; of two
    such neighbours the nearer, and the upper one on a tie. -/
def nearest? (i : Interval) (e : Int) : Option Nat :=
  let d := i.floor e
  match i.holds e d && d != 0, i.holds e (d + 1) with
  | false, false => none
  | true, false => some d
  | false, true => some (d + 1)
  | true, true =>
    let twice := 2 * i.units e i.value
    let middle := i.point e d + i.point e (d + 1)
    some (if twice < middle then d else d + 1)

/-- The first grid, from `10 ^ e` down, with a neighbour in the interval. -/
def search (i : Interval) : Nat → Int → Decimal
  | 0, e => ⟨i.floor e, e⟩
  | fuel + 1, e =>
    match i.nearest? e with
    | some d => ⟨d, e⟩
    | none => search i fuel (e - 1)

end Interval

namespace Decimal

/-- The shortest decimal that reads back as `m * 2 ^ q`, and the nearest of those.
    The search starts above the value and passes at most 17 digits below its first one. -/
def shortest (m : Nat) (q : Int) : Decimal :=
  let i := Interval.around m q
  -- `2 ^ k ≤ m * 2 ^ q < 2 ^ (k + 1)`, and three tenths of `k` are close to its decimal length
  let k : Int := Nat.log2 m + q
  let top : Int := (k + 1) * 30103 / 100000 + 2
  i.search 24 top

/-- Puts `n` in front of a point, filling with zeros up to `width` digits after it. -/
def padLeft (width : Nat) (s : String) : String :=
  "".pushn '0' (width - s.length) ++ s

/-- The digits with a point and without an exponent. -/
def positional (d : Decimal) : String :=
  if 0 ≤ d.exponent then
    (toString d.digits).pushn '0' d.exponent.toNat
  else
    let places := (-d.exponent).toNat
    let whole := d.digits / Nat.pow 10 places
    let part := d.digits % Nat.pow 10 places
    toString whole ++ "." ++ padLeft places (toString part)

end Decimal

/-- The fewest digits that read back, with a point and without an exponent; whole numbers
    have no point and negative zero keeps its sign. -/
def Double.shortestText : Double → String
  | nan => "NaN"
  | infinite negative => if negative then "-inf" else "inf"
  | finite negative m q =>
    (if negative then "-" else "") ++
      (if m = 0 then "0" else (Decimal.shortest m q).positional)

end QuantumLowering
