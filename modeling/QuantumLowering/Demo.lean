/-
  Demonstration modules.

  * `Demo`: a name, a summary and the module.
  * `Demo.all`: the demonstrations in the order of their list.
  * `Demo.find?`: the demonstration of a name.

  `sizedOperation` is the common shape of three of them: an exported operation on one register
  whose size is an expression in a hidden unknown `n`, which is also its first parameter.
-/
import QuantumLowering.Module

namespace QuantumLowering

/-- A demonstration module; its parts are checked when it is built. -/
structure Demo where
  name : String
  description : String
  module : Except FormationError Module

namespace Demo

/-- A place in the text that the demonstrations stand for. -/
def place (line column : Nat) : Option Location := some ⟨some "demo.qf", line, column⟩

/-- A whole number. -/
def number (n : Int64) : Quantity := .const n

/-- A program without parameters. -/
def program (name : String) (shots : Int64) (body : List Statement)
    (location : Option Location) : Function :=
  ⟨name, .program [] (number shots), some body, location⟩

/-- An instruction that measures qubits. -/
def measure (q : Qubits) : Statement := .primitive (.act (.measure q) none)

/-- An operation on a register `q` whose size is an expression in the hidden unknown `n`, and
    the exported function that implements it. -/
def sizedOperation (name : String) (size : Quantity → Quantity)
    (body : Qubits → Except FormationError (List Statement)) (location : Option Location) :
    Except FormationError (Definition × Function) := do
  let register : QuantumVariable := ⟨"q", size (.named "n"), .reference⟩
  let definition ← Definition.make name [] [⟨register, some "n"⟩]
  let statements ← body (.register register)
  return (definition,
    ⟨name, .operation true [⟨"n", .int⟩] [register], some statements, location⟩)

/-- A Hadamard gate on every qubit of a register. -/
def hadamardWall : Except FormationError Module := do
  let (wall, function) ← sizedOperation "wall" id
    (fun q => do
      return [← Statement.ofCall (.ofPower (.ofGate .h) q.size) q (place 2 5)])
    (place 1 1)
  let register := Qubits.fresh 0 (number 4) none
  let call ← Statement.ofCall (← Operation.ofCall wall []) register (place 6 5)
  return ⟨[], [function, program "main" 1024 [call, measure register] (place 5 1)]⟩

/-- A chain of entangled qubits, each flipped if the one before it is set. -/
def entangledChain : Except FormationError Module := do
  let size : ClassicalVariable := ⟨"SIZE", .int⟩
  let index : ClassicalVariable := ⟨"i", .int⟩
  let q := Qubits.register ⟨"q", size.quantity, .owner⟩
  let flip ← Operation.ofChoice (← q.element (index.quantity - number 1)) (.ofGate .x) (.ofGate .id)
  let step ← Statement.ofCall flip (← q.element index.quantity) (place 4 9)
  let first ← Statement.ofCall (.ofGate .h) (← q.element (number 0)) (place 3 5)
  let loop := Statement.loop index (.upTo (number 1) size.quantity) [step] (place 4 5)
  return ⟨[⟨size, .int (number 3)⟩], [program "ghz" 100 [first, loop, measure q] (place 2 1)]⟩

/-- A gate chosen by two controls, and nothing for one of their assignments. -/
def multiplexor : Except FormationError Module := do
  let qubits := Qubits.fresh 0 (number 3) none
  let controls ← qubits.slice (number 0) (number 2)
  let target ← qubits.element (number 2)
  let apply (g : Gate) : Except FormationError (List Statement) := do
    return [← Statement.ofCall (.ofGate g) target none]
  let blocks := [← apply .h, ← apply .x, [], ← apply .z]
  let mux ← Statement.ofMux [← controls.element (number 0), ← controls.element (number 1)]
    blocks (place 3 5)
  let spread ← Statement.ofCall (.ofPower (.ofGate .h) (number 2)) controls (place 2 5)
  return ⟨[], [program "mux" 1000 [spread, mux, measure qubits] (place 1 1)]⟩

/-- A hidden size solved from the part of a combination that is left over. -/
def inference : Except FormationError Module := do
  let (pairs, function) ← sizedOperation "pairs" (fun n => n * number 2 + number 2)
    (fun q => do
      return [← Statement.ofCall (.ofPower (.ofGate .swap) (q.size / number 2)) q (place 2 5)])
    (place 1 1)
  let register := Qubits.fresh 0 (number 9) (some (number 361))
  let both ← Operation.ofCombination [.ofGate .h, ← Operation.ofCall pairs []]
  let call ← Statement.ofCall both register (place 6 5)
  return ⟨[], [function, program "main" 1 [call, measure register] (place 5 1)]⟩

/-- An even register asked to fit three qubits. -/
def unsolvable : Except FormationError Module := do
  let (even, function) ← sizedOperation "even" (fun n => n * number 2)
    (fun q => do
      return [← Statement.ofCall (.ofPower (.ofGate .x) q.size) q none])
    (place 1 1)
  let call ← Statement.ofCall (← Operation.ofCall even []) (.fresh 0 (number 3) none) (place 5 5)
  return ⟨[], [function, program "main" 1 [call] (place 4 1)]⟩

/-- The demonstrations. -/
def all : List Demo := [
  ⟨"hadamard-wall", "H on every qubit of a register of inferred size", hadamardWall⟩,
  ⟨"ghz-qif", "GHZ preparation with a quantum if inside a loop", entangledChain⟩,
  ⟨"multiplexor", "Two-control mux with one empty block", multiplexor⟩,
  ⟨"inference", "Hidden size argument solved inside a tensor combination", inference⟩,
  ⟨"unsolvable", "Size inference that has no integer solution", unsolvable⟩]

/-- The demonstration of a name. -/
def find? (name : String) : Option Demo := all.find? (·.name = name)

/-- The error for a name of no demonstration. -/
def unknownMessage (name : String) : String := "Unknown demo '" ++ name ++ "', see `qforge demos`"

end Demo

end QuantumLowering
