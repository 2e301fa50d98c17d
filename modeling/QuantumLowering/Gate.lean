/-
  The built-in gates.

  * `Gate`: the gates with their parameters.
  * `Gate.ofName?`: the gate of a name and exactly its parameters.
  * `Gate.qubits`: two for the swap family, one for the others.
-/
import QuantumLowering.Classical.Real

namespace QuantumLowering

/-- The built-in gates. -/
inductive Gate
  | id
  | x
  | y
  | z
  | h
  | s
  | sdg
  | t
  | tdg
  | v
  | vdg
  /-- Phase gate. -/
  | p (angle : RealExpr)
  | rx (angle : RealExpr)
  | ry (angle : RealExpr)
  | rz (angle : RealExpr)
  /-- Rotation around the axis `(nx, ny, nz)`. -/
  | rn (nx ny nz angle : RealExpr)
  /-- Universal gate of three Euler angles. -/
  | u (theta phi lambda : RealExpr)
  | swap
  | iswap
  | iswapdg
  | sqrtswap
  | sqrtswapdg
  | sqrtiswap
  | sqrtiswapdg
deriving BEq

namespace Gate

/-- The name of a gate. -/
def name : Gate → String
  | id => "id"
  | x => "x"
  | y => "y"
  | z => "z"
  | h => "h"
  | s => "s"
  | sdg => "sdg"
  | t => "t"
  | tdg => "tdg"
  | v => "v"
  | vdg => "vdg"
  | p _ => "p"
  | rx _ => "rx"
  | ry _ => "ry"
  | rz _ => "rz"
  | rn .. => "rn"
  | u .. => "u"
  | swap => "swap"
  | iswap => "iswap"
  | iswapdg => "iswapdg"
  | sqrtswap => "sqrtswap"
  | sqrtswapdg => "sqrtswapdg"
  | sqrtiswap => "sqrtiswap"
  | sqrtiswapdg => "sqrtiswapdg"

/-- The number of qubits a gate acts on. -/
def qubits : Gate → Nat
  | swap | iswap | iswapdg | sqrtswap | sqrtswapdg | sqrtiswap | sqrtiswapdg => 2
  | _ => 1

/-- Whether the gate does nothing. -/
def isIdentity : Gate → Bool
  | id => true
  | _ => false

/-- The parameters of a gate. -/
def parameters : Gate → List RealExpr
  | p a | rx a | ry a | rz a => [a]
  | rn nx ny nz a => [nx, ny, nz, a]
  | u a b c => [a, b, c]
  | _ => []

/-- The gate of a name, given exactly the parameters it takes. -/
def ofName? (name : String) (parameters : List RealExpr) : Option Gate :=
  match name, parameters with
  | "id", [] => some id
  | "x", [] => some x
  | "y", [] => some y
  | "z", [] => some z
  | "h", [] => some h
  | "s", [] => some s
  | "sdg", [] => some sdg
  | "t", [] => some t
  | "tdg", [] => some tdg
  | "v", [] => some v
  | "vdg", [] => some vdg
  | "p", [a] => some (p a)
  | "rx", [a] => some (rx a)
  | "ry", [a] => some (ry a)
  | "rz", [a] => some (rz a)
  | "rn", [nx, ny, nz, a] => some (rn nx ny nz a)
  | "u", [a, b, c] => some (u a b c)
  | "swap", [] => some swap
  | "iswap", [] => some iswap
  | "iswapdg", [] => some iswapdg
  | "sqrtswap", [] => some sqrtswap
  | "sqrtswapdg", [] => some sqrtswapdg
  | "sqrtiswap", [] => some sqrtiswap
  | "sqrtiswapdg", [] => some sqrtiswapdg
  | _, _ => none

/-- The text of a gate: its name and its parameters, if it has any. -/
def render (g : Gate) : String :=
  match g.parameters with
  | [] => g.name
  | ps => g.name ++ "(" ++ ", ".intercalate (ps.map RealExpr.render) ++ ")"

end Gate

end QuantumLowering
