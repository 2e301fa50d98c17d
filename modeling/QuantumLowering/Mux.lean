/-
  Multiplexed control: one block for every assignment of truth values to the controls.

  * `Mux.blockCount?`: `2 ^ k` blocks for `k` controls, while that fits in 64 bits.
  * `Mux.checkShape`: refuses any other number of blocks.
  * `Mux.linearize`: the blocks in the order of their numbers; block `i` runs where control
    `p` equals bit `p` of `i`, and between two blocks only the controls whose bit changes
    are closed and opened again.
-/
import QuantumLowering.Instruction

namespace QuantumLowering

namespace Mux

/-- The number of blocks for so many controls, if it fits in 64 bits. -/
def blockCount? (controls : Nat) : Option Nat :=
  if controls < 64 then some (Nat.pow 2 controls) else none

/-- The largest 64-bit number stands for a number of blocks that does not fit. -/
def largestCount : Nat := UInt64.size - 1

/-- Refuses a number of blocks other than one for each assignment. -/
def checkShape (controls blocks : Nat) : Except FormationError Unit :=
  if blockCount? controls = some blocks then .ok ()
  else .error ⟨.muxShape controls ((blockCount? controls).getD largestCount) blocks, none⟩

/-- Opens a control. -/
def openControl (location : Option Location) (control : Qubits) (condition : Bool) :
    Instruction :=
  .act (.beginControl control condition) location

/-- Closes a control. -/
def closeControl (location : Option Location) (control : Qubits) : Instruction :=
  .act (.endControl control) location

/-- Whether control `p` changes on the way to block `state`. -/
def changes (state p : Nat) : Bool := (state ^^^ (state - 1)).testBit p

/-- Moves the controls, numbered from `p`, from block `state - 1` to block `state`. -/
def togglesFrom (location : Option Location) (state : Nat) : Nat → List Qubits → List Instruction
  | _, [] => []
  | p, control :: controls =>
    (if changes state p then
      [closeControl location control, openControl location control (state.testBit p)]
    else []) ++ togglesFrom location state (p + 1) controls

/-- The way to block `state`; the first block has its controls opened already. -/
def toggles (controls : List Qubits) (location : Option Location) (state : Nat) :
    List Instruction :=
  if state = 0 then [] else togglesFrom location state 0 controls

/-- The blocks numbered from `state`, each behind the way to it. -/
def arms (controls : List Qubits) (location : Option Location) :
    Nat → List (List Instruction) → List Instruction
  | _, [] => []
  | state, block :: blocks =>
    toggles controls location state ++ block ++ arms controls location (state + 1) blocks

/-- The blocks under their controls, all of them open on false at first and closed at last. -/
def linearize (controls : List Qubits) (blocks : List (List Instruction))
    (location : Option Location) : Except FormationError (List Instruction) :=
  (checkShape controls.length blocks.length).map fun _ =>
    controls.map (openControl location · false) ++ arms controls location 0 blocks ++
      controls.map (closeControl location)

end Mux

end QuantumLowering
