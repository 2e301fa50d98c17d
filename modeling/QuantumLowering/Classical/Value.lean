/-
  Classical values and variables.

  * `ClassicalType`: booleans, integers, reals and complex numbers.
  * `ClassicalVariable`: a name with its type.
  * `ClassicalValue`: an expression of one of the types.
-/
import QuantumLowering.Classical.Condition
import QuantumLowering.Classical.Scalar

namespace QuantumLowering

/-- The classical types. -/
inductive ClassicalType
  | bool
  | int
  | float
  | complex
deriving DecidableEq, Repr

/-- The text of a type. -/
def ClassicalType.render : ClassicalType → String
  | bool => "bool"
  | int => "int"
  | float => "float"
  | complex => "complex"

/-- A classical variable. -/
structure ClassicalVariable where
  name : String
  type : ClassicalType
deriving DecidableEq, Repr

namespace ClassicalVariable

/-- The variable as an integer. -/
def quantity (v : ClassicalVariable) : Quantity := .named v.name

/-- The text of a variable where it is declared. -/
def render (v : ClassicalVariable) : String := v.name ++ ": " ++ v.type.render

end ClassicalVariable

/-- A classical expression of some type. -/
inductive ClassicalValue
  | int (value : Quantity)
  | float (value : RealExpr)
  | bool (value : Condition)
  | complex (value : Scalar)
deriving BEq

namespace ClassicalValue

/-- The type of a value. -/
def type : ClassicalValue → ClassicalType
  | int _ => .int
  | float _ => .float
  | bool _ => .bool
  | complex _ => .complex

/-- The integer, if the value is one. -/
def int? : ClassicalValue → Option Quantity
  | int value => some value
  | _ => none

/-- The text of a value. -/
def render : ClassicalValue → String
  | int value => value.render
  | float value => value.render
  | bool value => value.render
  | complex value => value.render

/-- The text of an argument list. -/
def renderList (args : List ClassicalValue) : String :=
  ", ".intercalate (args.map render)

end ClassicalValue

end QuantumLowering
