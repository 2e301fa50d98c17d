/-
  Quantum variables and the signatures of user operations.

  * `QuantumVariable`: a named register, owned or referring to qubits owned elsewhere.
  * `QuantumParameter`: the register an operation acts on, with the hidden unknown to be
    solved from the size of the target, if there is one.
  * `Definition`: an operation's name, classical parameters and single quantum parameter.
  * `Definition.make`: refuses any other number of quantum parameters, and a hidden unknown
    that the size does not mention.
-/
import QuantumLowering.Classical.Value
import QuantumLowering.Formation

namespace QuantumLowering

/-- Whether a register owns its qubits. -/
inductive Ownership
  | owner
  | reference
deriving DecidableEq, Repr

/-- A named quantum register. -/
structure QuantumVariable where
  name : String
  size : Quantity
  ownership : Ownership
deriving BEq

/-- Registers are equal when their names, their sizes up to positions and their kinds are. -/
theorem QuantumVariable.beq_iff {v w : QuantumVariable} :
    (v == w) = true ↔
      v.name = w.name ∧ v.size.poly = w.size.poly ∧ v.ownership = w.ownership := by
  cases v
  cases w
  simp [BEq.beq, instBEqQuantumVariable.beq, Symbol.comparePoly_eq_iff]

instance : ReflBEq QuantumVariable := ⟨QuantumVariable.beq_iff.2 ⟨rfl, rfl, rfl⟩⟩

/-- The text of a register where it is declared. -/
def QuantumVariable.render (v : QuantumVariable) : String :=
  v.name ++ ": qreg[" ++ v.size.render ++ "]"

/-- The register an operation acts on. -/
structure QuantumParameter where
  register : QuantumVariable
  /-- The unknown that each call solves from the size of its target. -/
  hidden : Option String
deriving BEq

/-- The signature of a user operation. -/
structure Definition where
  name : String
  params : List ClassicalVariable
  parameter : QuantumParameter
  location : Option Location
deriving BEq

namespace Definition

/-- The declared size of the register. -/
def size (d : Definition) : Quantity := d.parameter.register.size

/-- The hidden unknown, if the size is inferred. -/
def hidden (d : Definition) : Option String := d.parameter.hidden

/-- A definition without a position. -/
def make (name : String) (params : List ClassicalVariable)
    (parameters : List QuantumParameter) : Except FormationError Definition :=
  match parameters with
  | [parameter] =>
    let size := parameter.register.size
    match parameter.hidden with
    | some x =>
      if size.mentions x then .ok ⟨name, params, parameter, none⟩
      else .error ⟨.unusedSizeInference name parameter.register.name size.render x, none⟩
    | none => .ok ⟨name, params, parameter, none⟩
  | _ => .error ⟨.quantumParameterCount name parameters.length, none⟩

/-- The same definition at another position. -/
def withLocation (d : Definition) (loc : Location) : Definition :=
  { d with location := some loc }

end Definition

end QuantumLowering
