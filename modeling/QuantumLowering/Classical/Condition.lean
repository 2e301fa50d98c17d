/-
  Boolean expressions over variables and integer comparisons.

  * `Comparison`: the six relations between integers.
  * `Condition`: constants, variables, connectives and comparisons.
  * `Condition.value?`: evaluation where unknown parts leave the result open, unless the known
    part of a conjunction or disjunction decides it.  A comparison is decided by the sign of
    the difference of its sides, when that is constant.
-/
import QuantumLowering.Quantity

namespace QuantumLowering

/-- The relations between integers. -/
inductive Comparison
  | eq
  | ne
  | lt
  | le
  | gt
  | ge
deriving DecidableEq, Repr

namespace Comparison

/-- The mark written between the sides. -/
def token : Comparison → String
  | eq => "=="
  | ne => "!="
  | lt => "<"
  | le => "<="
  | gt => ">"
  | ge => ">="

/-- Whether two integers stand in the relation. -/
def holds (r : Comparison) (a b : Int64) : Bool :=
  match r with
  | eq => a == b
  | ne => a != b
  | lt => a < b
  | le => a ≤ b
  | gt => b < a
  | ge => b ≤ a

end Comparison

/-- A boolean expression. -/
inductive Condition
  | const (value : Bool)
  | var (name : String)
  | not (a : Condition)
  | and (a b : Condition)
  | or (a b : Condition)
  | compare (relation : Comparison) (lhs rhs : Quantity)
deriving BEq, Inhabited

namespace Condition

/-- Conjunction of possibly unknown truth values; one false side decides it. -/
def and? : Option Bool → Option Bool → Option Bool
  | some false, _ => some false
  | _, some false => some false
  | some true, some true => some true
  | _, _ => none

/-- Disjunction of possibly unknown truth values; one true side decides it. -/
def or? : Option Bool → Option Bool → Option Bool
  | some true, _ => some true
  | _, some true => some true
  | some false, some false => some false
  | _, _ => none

/-- The truth value, where the known parts decide it. -/
def value? : Condition → Option Bool
  | const b => some b
  | var _ => none
  | not a => a.value?.map (!·)
  | and a b => and? a.value? b.value?
  | or a b => or? a.value? b.value?
  | compare r lhs rhs => (lhs - rhs).constant?.map (r.holds · 0)

/-- The text of a condition. -/
def render : Condition → String
  | const b => if b then "true" else "false"
  | var x => x
  | not a => "!(" ++ a.render ++ ")"
  | and a b => "(" ++ a.render ++ " && " ++ b.render ++ ")"
  | or a b => "(" ++ a.render ++ " || " ++ b.render ++ ")"
  | compare r lhs rhs => "(" ++ lhs.render ++ " " ++ r.token ++ " " ++ rhs.render ++ ")"

end Condition

end QuantumLowering
