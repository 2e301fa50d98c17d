/-
  Compile-time integers: polynomials that remember where they were written.

  * `Quantity`: a polynomial and an optional source position.
  * The operators keep the position of the left operand, else that of the right one.
  * Equality looks at the polynomial alone.
  * `Quantity.surelyDiffers`: the difference is a nonzero constant, so no values of the
    unknowns make the two sides equal.
  * `Quantity.solve?`: the value of an unknown in an equation linear in it.
-/
import QuantumLowering.Location
import QuantumLowering.Symbol.Equality
import QuantumLowering.Symbol.Text

namespace QuantumLowering

/-- A compile-time integer with the position it was written at. -/
structure Quantity where
  poly : Poly
  location : Option Location

namespace Quantity

instance : BEq Quantity := ⟨fun a b => a.poly == b.poly⟩

/-- Quantities are equal when their polynomials are. -/
theorem beq_iff {a b : Quantity} : (a == b) = true ↔ a.poly = b.poly :=
  beq_iff_eq (a := a.poly)

instance : ReflBEq Quantity := ⟨beq_iff.2 rfl⟩

/-- A polynomial without a position. -/
def ofPoly (p : Poly) : Quantity := ⟨p, none⟩

/-- A constant. -/
def const (c : Int64) : Quantity := ofPoly (.const c)

/-- An unknown. -/
def named (x : String) : Quantity := ofPoly (.named x)

instance : Inhabited Quantity := ⟨const 0⟩

/-- A call of an integer function. -/
def call (function : String) (args : List Quantity) : Quantity :=
  ofPoly (.call function (args.map (·.poly)))

/-- The same value at another position. -/
def withLocation (a : Quantity) (loc : Location) : Quantity := { a with location := some loc }

/-- The value of a quantity without unknowns. -/
def constant? (a : Quantity) : Option Int64 := a.poly.constant?

/-- Whether a quantity has no unknowns. -/
def isConstant (a : Quantity) : Bool := a.poly.isConstant

/-- Whether the quantity is the constant `c`. -/
def isConst (a : Quantity) (c : Int64) : Bool := a.constant? == some c

/-- Whether the unknown `x` occurs. -/
def mentions (a : Quantity) (x : String) : Bool := a.poly.mentions x

/-- The text of a quantity. -/
def render (a : Quantity) : String := a.poly.render

/-! ## Operators -/

/-- Combines two polynomials; the left position wins. -/
def combine (f : Poly → Poly → Poly) (a b : Quantity) : Quantity :=
  ⟨f a.poly b.poly, a.location.or b.location⟩

instance : Add Quantity := ⟨combine (· + ·)⟩
instance : Sub Quantity := ⟨combine (· - ·)⟩
instance : Mul Quantity := ⟨combine (· * ·)⟩
instance : Neg Quantity := ⟨fun a => { a with poly := -a.poly }⟩

/-- Applies an operator that may stay symbolic. -/
def binary (op : BinOp) (a b : Quantity) : Quantity := combine op.apply a b

instance : Div Quantity := ⟨binary .div⟩

/-- The power with a constant exponent. -/
def pow (a : Quantity) (e : Nat) : Quantity := { a with poly := a.poly.pow e }

/-- Replaces the unknown `x` by `v`. -/
def subst (a : Quantity) (x : String) (v : Quantity) : Quantity :=
  { a with poly := a.poly.subst x v.poly }

/-- The quotient by a constant that divides every coefficient. -/
def divExact? (a b : Quantity) : Option Quantity :=
  (b.constant?.bind a.poly.divExact?).map (⟨·, a.location.or b.location⟩)

/-! ## Comparison and solving -/

/-- Whether the difference is a nonzero constant. -/
def surelyDiffers (a b : Quantity) : Bool :=
  match (a - b).constant? with
  | some d => d != 0
  | none => false

/-- The constant and the coefficient of `c + k * x`; the constant may be absent. -/
def linearIn? (x : String) (a : Quantity) : Option (Int64 × Int64) :=
  match a.poly.terms with
  | [t] => (slope? t).map (0, ·)
  | [s, t] => if s.powers.isOne then (slope? t).map (s.coefficient, ·) else none
  | _ => none
where
  /-- The coefficient of a term that is a multiple of `x`. -/
  slope? (t : Monomial Symbol) : Option Int64 :=
    match t.powers.linearSymbol? with
    | some (.named n) => if n = x then some t.coefficient else none
    | _ => none

/-- The value of `x` in `a = rhs`, for `a` of the form `c + k * x`; there is none when
    `rhs - c` is a constant that `k` does not divide. -/
def solve? (a rhs : Quantity) (x : String) : Option Quantity :=
  match a.linearIn? x with
  | none => none
  | some (c, k) =>
    let remainder := rhs - const c
    match remainder.constant? with
    | some r => if r % k = 0 then some (remainder / const k) else none
    | none => some (remainder / const k)

/-- The message for an equation that has no solution of this kind. -/
def unsolvableMessage (a : Quantity) (x : String) : String :=
  "'" ++ a.render ++ "' is not linear in '" ++ x ++ "'"

end Quantity

end QuantumLowering
