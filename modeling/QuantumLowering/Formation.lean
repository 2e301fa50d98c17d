/-
  What can be wrong with a register, a definition or an operation.

  * `SliceFault`: what is wrong with the bounds of a slice.
  * `FormationFault`: the causes, with the texts of the parts they name.
  * `FormationError`: a cause and the position it points at.
  * `FormationError.message`: the position, if known, and the cause in words.
-/
import QuantumLowering.Location

namespace QuantumLowering

/-- What is wrong with the bounds or the stride of a slice. -/
inductive SliceFault
  | stepNotPositive (step : String)
  | negativeStart (start : String)
  | emptyRange (start stop : String)
  | pastEnd (stop : String) (size : Int64)

/-- The cause in words. -/
def SliceFault.message : SliceFault → String
  | stepNotPositive step => "step " ++ step ++ " must be positive"
  | negativeStart start => "start " ++ start ++ " is negative"
  | emptyRange start stop => "range [" ++ start ++ ", " ++ stop ++ ") is empty"
  | pastEnd stop size => "end " ++ stop ++ " exceeds register size " ++ toString size.toInt

/-- The composite operations that need at least one element. -/
inductive Composite
  | sequence
  | combination

/-- The name of a composite operation. -/
def Composite.render : Composite → String
  | sequence => "sequential product"
  | combination => "combination"

/-- Why a register, a definition or an operation is not well formed. -/
inductive FormationFault
  /-- An operation and its target, or two elements of a product, have different sizes. -/
  | sizeMismatch (operation target expected got : String)
  /-- The branches of a quantum choice have different sizes. -/
  | branchSizes (thenSize elseSize : String)
  /-- One branch of a quantum choice takes its size from the target, the other does not. -/
  | branchDeterminedness
  | invalidSlice (fault : SliceFault)
  /-- A constant index outside a register; an unknown size is given as `-1`. -/
  | indexOutOfBounds (index size : Int64)
  | argumentCount (operation : String) (expected got : Nat)
  | quantumParameterCount (operation : String) (found : Nat)
  /-- A size that should determine a hidden unknown does not mention it. -/
  | unusedSizeInference (operation parameter size hidden : String)
  | noElements (composite : Composite)
  | muxShape (controls expected got : Nat)

/-- The cause in words. -/
def FormationFault.message : FormationFault → String
  | sizeMismatch operation target expected got =>
    "size mismatch: operation '" ++ operation ++ "' has size " ++ expected ++
      ", target '" ++ target ++ "' has size " ++ got
  | branchSizes a b => "qif branches have different sizes: " ++ a ++ " and " ++ b
  | branchDeterminedness => "qif branches disagree on whether their size is determined"
  | invalidSlice fault => "invalid slice: " ++ fault.message
  | indexOutOfBounds index size =>
    "index " ++ toString index.toInt ++ " out of bounds for register of size " ++
      toString size.toInt
  | argumentCount operation expected got =>
    "operation '" ++ operation ++ "' expects " ++ toString expected ++
      " classical arguments, got " ++ toString got
  | quantumParameterCount operation found =>
    "operation '" ++ operation ++ "' must have exactly one quantum parameter, found " ++
      toString found
  | unusedSizeInference operation parameter size hidden =>
    "size '" ++ size ++ "' of quantum parameter '" ++ parameter ++ "' of operation '" ++
      operation ++ "' does not depend on '" ++ hidden ++ "'"
  | noElements composite => composite.render ++ " requires at least one operation"
  | muxShape controls expected got =>
    "mux with " ++ toString controls ++ " controls needs " ++ toString expected ++
      " blocks, got " ++ toString got

/-- A cause with the position it points at. -/
structure FormationError where
  fault : FormationFault
  location : Option Location

/-- The position, if known, and the cause in words. -/
def FormationError.message (e : FormationError) : String :=
  Location.lead e.location ++ e.fault.message

end QuantumLowering
