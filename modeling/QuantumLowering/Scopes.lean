/-
  Which qubits are declared where.

  * `Scopes`: a nonempty stack of frames, each with the qubits declared in one body.
  * `Scopes.enter`, `Scopes.leave`: the outermost frame is never left.
  * `Scopes.isDeclared`: declared in some frame of the stack.
  * `Scopes.use`: the declarations that make qubits usable, the parts of a description before
    the description itself, and the stack with all of them in its innermost frame.
-/
import QuantumLowering.Instruction

namespace QuantumLowering

/-- The innermost frame and the frames around it, each with its declared qubits. -/
structure Scopes where
  innermost : List Qubits
  outer : List (List Qubits)

namespace Scopes

/-- One empty frame. -/
def initial : Scopes := ⟨[], []⟩

instance : Inhabited Scopes := ⟨initial⟩

/-- The number of frames. -/
def depth (s : Scopes) : Nat := s.outer.length + 1

/-- The frames from the innermost one out. -/
def frames (s : Scopes) : List (List Qubits) := s.innermost :: s.outer

/-- Opens an empty frame. -/
def enter (s : Scopes) : Scopes := ⟨[], s.innermost :: s.outer⟩

/-- Closes the innermost frame, unless it is the only one. -/
def leave (s : Scopes) : Scopes :=
  match s.outer with
  | [] => s
  | frame :: frames => ⟨frame, frames⟩

/-- Whether qubits are declared in some frame. -/
def isDeclared (s : Scopes) (q : Qubits) : Bool := s.frames.any (·.contains q)

/-- Records qubits in the innermost frame. -/
def declare (s : Scopes) (q : Qubits) : Scopes := { s with innermost := q :: s.innermost }

mutual
/-- The qubits to declare so that `q` is usable, in the order of their declarations, and the
    stack afterwards.  Registers and declared qubits need nothing. -/
def use (s : Scopes) : Qubits → List Qubits × Scopes
  | .register _ => ([], s)
  | .fresh number size init =>
    let q := .fresh number size init
    if s.isDeclared q then ([], s) else ([q], s.declare q)
  | .strided subject start stop step =>
    let q := .strided subject start stop step
    if s.isDeclared q then ([], s)
    else
      let (before, s') := s.use subject
      (before ++ [q], s'.declare q)
  | .single subject index =>
    let q := .single subject index
    if s.isDeclared q then ([], s)
    else
      let (before, s') := s.use subject
      (before ++ [q], s'.declare q)
  | .joined parts =>
    let q := .joined parts
    if s.isDeclared q then ([], s)
    else
      let (before, s') := s.useAll parts
      (before ++ [q], s'.declare q)

/-- `use` on each of several descriptions in turn. -/
def useAll (s : Scopes) : List Qubits → List Qubits × Scopes
  | [] => ([], s)
  | q :: qs =>
    let (first, s') := s.use q
    let (rest, s'') := s'.useAll qs
    (first ++ rest, s'')
end

end Scopes

/-- The declarations of qubits, without a position. -/
def declarations (qs : List Qubits) : List Instruction :=
  qs.map fun q => .act (.declare q) none

end QuantumLowering
