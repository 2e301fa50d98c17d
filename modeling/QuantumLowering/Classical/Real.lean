/-
  Real-valued expressions, used for gate angles and magnitudes.

  * `RealExpr`: constants, variables, pi, integers, and arithmetic on them.
  * `RealExpr.isSymbolic`: whether a variable or a non-constant integer occurs.
  * `RealExpr.value?`: the floating-point value where everything is known; a zero divisor
    has none, whatever the dividend.
  * `RealExpr.render`: constants by their shortest digits, arithmetic in parentheses.
-/
import QuantumLowering.Quantity
import QuantumLowering.Decimal.Shortest

namespace QuantumLowering

/-- A real-valued expression. -/
inductive RealExpr
  | const (value : Float)
  | var (name : String)
  | pi
  | ofInt (value : Quantity)
  | neg (a : RealExpr)
  | add (a b : RealExpr)
  | sub (a b : RealExpr)
  | mul (a b : RealExpr)
  | div (a b : RealExpr)
deriving BEq, Inhabited

namespace RealExpr

/-- The floating-point number nearest to pi. -/
def piValue : Float := Float.ofBits 0x400921fb54442d18

/-- Whether the expression depends on anything unknown. -/
def isSymbolic : RealExpr → Bool
  | const _ | pi => false
  | var _ => true
  | ofInt i => !i.isConstant
  | neg a => a.isSymbolic
  | add a b | sub a b | mul a b | div a b => a.isSymbolic || b.isSymbolic

/-- The value of an expression without unknowns and without zero divisors. -/
def value? : RealExpr → Option Float
  | const v => some v
  | var _ => none
  | pi => some piValue
  | ofInt i => i.constant?.map Int64.toFloat
  | neg a => a.value?.map fun x => -x
  | add a b => a.value?.bind fun x => b.value?.map fun y => x + y
  | sub a b => a.value?.bind fun x => b.value?.map fun y => x - y
  | mul a b => a.value?.bind fun x => b.value?.map fun y => x * y
  | div a b => b.value?.bind fun y =>
      if y == 0.0 then none else a.value?.map fun x => x / y

/-- Two operands around a mark, in parentheses. -/
def spaced (a mark b : String) : String := "(" ++ a ++ " " ++ mark ++ " " ++ b ++ ")"

/-- The text of an expression. -/
def render : RealExpr → String
  | const v => (Double.ofFloat v).shortestText
  | var x => x
  | pi => "pi"
  | ofInt i => "float(" ++ i.render ++ ")"
  | neg a => "-(" ++ a.render ++ ")"
  | add a b => spaced a.render "+" b.render
  | sub a b => spaced a.render "-" b.render
  | mul a b => spaced a.render "*" b.render
  | div a b => spaced a.render "/" b.render

end RealExpr

end QuantumLowering
