/-
  Complex scalars, the coefficients of operations.

  * `Scalar`: a constant, or a magnitude and a phase.
  * `Scalar.value?`: real and imaginary part, where magnitude and phase are known.
  * `Scalar.render`: `(re+imi)` for constants, `(r*e^(i*phi))` for polar ones.
-/
import QuantumLowering.Classical.Real

namespace QuantumLowering

/-- A complex scalar. -/
inductive Scalar
  | const (re im : Float)
  | polar (magnitude phase : RealExpr)
deriving BEq, Inhabited

namespace Scalar

/-- A scalar of magnitude one. -/
def ofPhase (phase : RealExpr) : Scalar := polar (.const 1.0) phase

/-- Real and imaginary part. -/
def value? : Scalar → Option (Float × Float)
  | const re im => some (re, im)
  | polar magnitude phase => magnitude.value?.bind fun r => phase.value?.map fun phi =>
      (r * phi.cos, r * phi.sin)

/-- The magnitude of a part; negative zero stays as it is. -/
def magnitude (x : Float) : Float := if x < 0.0 then 0.0 - x else x

/-- The text of a constant: a minus before the real part and a sign between the parts. -/
def renderConst (re im : Float) : String :=
  (if re < 0.0 then "-" else "") ++ (Double.ofFloat (magnitude re)).shortestText ++
    (if im < 0.0 then "-" else "+") ++ (Double.ofFloat (magnitude im)).shortestText ++ "i"

/-- The text of a scalar. -/
def render : Scalar → String
  | const re im => "(" ++ renderConst re im ++ ")"
  | polar magnitude phase => "(" ++ magnitude.render ++ "*e^(i*" ++ phase.render ++ "))"

end Scalar

end QuantumLowering
