/-
  Ranges of counted loops.

  * `LoopRange`: first value, bound, increment, and whether the bound belongs to the range.
  * `LoopRange.bound`: the exclusive bound.
  * `LoopRange.tripCount`: the span divided by the increment, rounded up.
-/
import QuantumLowering.Quantity

namespace QuantumLowering

/-- The values of a loop index. -/
structure LoopRange where
  start : Quantity
  stop : Quantity
  step : Quantity
  /-- Whether `stop` itself belongs to the range. -/
  inclusive : Bool

namespace LoopRange

/-- `[start, stop)` with increment one. -/
def upTo (start stop : Quantity) : LoopRange := ⟨start, stop, .const 1, false⟩

/-- The first value past the range. -/
def bound (r : LoopRange) : Quantity := if r.inclusive then r.stop + .const 1 else r.stop

/-- The number of iterations, for positive increments. -/
def tripCount (r : LoopRange) : Quantity :=
  let span := r.bound - r.start
  if r.step.isConst 1 then span else (span + r.step - .const 1) / r.step

/-- The text of a range. -/
def render (r : LoopRange) : String :=
  "[" ++ r.start.render ++ ", " ++ r.stop.render ++ (if r.inclusive then "]" else ")") ++
    (if r.step.isConst 1 then "" else " step " ++ r.step.render)

end LoopRange

end QuantumLowering
