/-
  Blocks of statements that still contain operation calls.

  * `Statement`: primitive instructions, operation calls, loops, conditionals, adjoint regions,
    compute blocks and muxes.
  * `Statement.ofCall`, `Statement.ofMux`: refuse a target of surely different size and a wrong
    number of blocks.
-/
import QuantumLowering.Mux

namespace QuantumLowering

/-- A statement of a block; all but primitive instructions have a position of their own. -/
inductive Statement
  | primitive (i : Instruction)
  | call (operation : Operation) (target : Qubits) (location : Option Location)
  | loop (index : ClassicalVariable) (range : LoopRange) (body : List Statement)
      (location : Option Location)
  | ifThen (condition : Condition) (body : List Statement) (location : Option Location)
  | ifElse (condition : Condition) (onTrue onFalse : List Statement)
      (location : Option Location)
  /-- The body as its conjugate transpose. -/
  | dagger (body : List Statement) (location : Option Location)
  | within (compute body : List Statement) (location : Option Location)
  /-- One block for each assignment of truth values to the controls. -/
  | mux (controls : List Qubits) (blocks : List (List Statement)) (location : Option Location)

namespace Statement

/-- An operation applied to a target that may have its size. -/
def ofCall (operation : Operation) (target : Qubits) (location : Option Location) :
    Except FormationError Statement :=
  (operation.checkTarget target location).map fun _ => call operation target location

/-- A mux with one block for each assignment. -/
def ofMux (controls : List Qubits) (blocks : List (List Statement))
    (location : Option Location) : Except FormationError Statement :=
  (Mux.checkShape controls.length blocks.length).map fun _ => mux controls blocks location

end Statement

end QuantumLowering
