/-
  Lowered code: flat lists of primitive instructions, with bodies only in loops, conditionals
  and compute blocks.

  * `Action`: the instructions without a body.
  * `Instruction`: actions, counted loops, conditionals, and compute blocks, each with the
    position it comes from.
  * `Instruction.qubits`: the qubits an instruction names itself, its bodies left out.
  * `Instruction.deepLength`: the number of instructions including those in bodies.
  * `dropDeclarations`: a list without its own declarations, for code that runs again.
-/
import QuantumLowering.Operation
import QuantumLowering.Classical.Range

namespace QuantumLowering

/-- An instruction without a body. -/
inductive Action
  /-- Makes qubits usable under their identifier. -/
  | declare (q : Qubits)
  /-- Writes an integer into qubits. -/
  | encode (target : Qubits) (value : Quantity)
  | apply (e : Elementary) (target : Qubits)
  /-- From here on only where the control is as given. -/
  | beginControl (control : Qubits) (condition : Bool)
  | endControl (control : Qubits)
  | beginDagger
  | endDagger
  | measure (target : Qubits)
  /-- Initialises a classical variable. -/
  | assign (name : ClassicalVariable) (value : ClassicalValue)
  /-- Gives qubits another name. -/
  | bind (name : QuantumVariable) (q : Qubits)

/-- A lowered instruction with the position it comes from. -/
inductive Instruction
  | act (action : Action) (location : Option Location)
  | loop (index : ClassicalVariable) (range : LoopRange) (body : List Instruction)
      (location : Option Location)
  | ifThen (condition : Condition) (body : List Instruction) (location : Option Location)
  | ifElse (condition : Condition) (onTrue onFalse : List Instruction)
      (location : Option Location)
  /-- Computes, runs the body, and takes the computation back. -/
  | within (compute body : List Instruction) (location : Option Location)

namespace Action

/-- The qubits an action names. -/
def qubits : Action → List Qubits
  | declare q => [q]
  | encode q _ | apply _ q | measure q => [q]
  | beginControl q _ | endControl q => [q]
  | bind _ q => [q]
  | beginDagger | endDagger | assign _ _ => []

/-- The text of an action. -/
def render : Action → String
  | declare q => "declare " ++ q.identifier ++ " = " ++ q.render
  | encode q value => "encode " ++ q.identifier ++ " <- " ++ value.render
  | apply (.gate g) q => g.render ++ " " ++ q.identifier
  | apply (.call d args) q =>
    d.name ++ "(" ++ ClassicalValue.renderList args ++ ") " ++ q.identifier
  | beginControl q condition =>
    "begin_ctrl " ++ q.identifier ++ (if condition then " true" else " false")
  | endControl q => "end_ctrl " ++ q.identifier
  | beginDagger => "begin_dagger"
  | endDagger => "end_dagger"
  | measure q => "measure " ++ q.identifier
  | assign x value => "let " ++ x.name ++ " = " ++ value.render
  | bind x q => "qref " ++ x.name ++ " = " ++ q.identifier

end Action

namespace Instruction

/-- The declaration of qubits; named registers need none. -/
def declaration? (q : Qubits) : Option Instruction :=
  if q.isDeclarable then some (act (.declare q) none) else none

/-- The position an instruction comes from. -/
def location : Instruction → Option Location
  | act _ l | loop _ _ _ l | ifThen _ _ l | ifElse _ _ _ l | within _ _ l => l

/-- The same instruction with another position, or with none. -/
def withLocation (i : Instruction) (l : Option Location) : Instruction :=
  match i with
  | act a _ => act a l
  | loop x r b _ => loop x r b l
  | ifThen c b _ => ifThen c b l
  | ifElse c a b _ => ifElse c a b l
  | within c b _ => within c b l

/-- Whether an instruction is a declaration. -/
def isDeclaration : Instruction → Bool
  | act (.declare _) _ => true
  | _ => false

/-- Whether an instruction opens or closes a control. -/
def isControl : Instruction → Bool
  | act (.beginControl ..) _ | act (.endControl _) _ => true
  | _ => false

/-- The qubits an instruction names itself; those in its bodies are not among them. -/
def qubits : Instruction → List Qubits
  | act a _ => a.qubits
  | _ => []

/-- The bodies of an instruction. -/
def bodies : Instruction → List (List Instruction)
  | act _ _ => []
  | loop _ _ b _ => [b]
  | ifThen _ b _ => [b]
  | ifElse _ a b _ => [a, b]
  | within c b _ => [c, b]

/-- The text of an instruction; bodies are counted, not written out. -/
def render : Instruction → String
  | act a _ => a.render
  | loop x r b _ =>
    "for " ++ x.name ++ " in " ++ r.render ++ " (" ++ toString b.length ++ " instructions)"
  | ifThen c _ _ => "if " ++ c.render
  | ifElse c _ _ _ => "if " ++ c.render
  | within c b _ =>
    "with (" ++ toString c.length ++ " compute, " ++ toString b.length ++ " body)"

mutual
/-- The number of instructions, those in bodies included. -/
def deepLength : Instruction → Nat
  | .act _ _ => 1
  | .loop _ _ b _ => 1 + deepLengths b
  | .ifThen _ b _ => 1 + deepLengths b
  | .ifElse _ a b _ => 1 + (deepLengths a + deepLengths b)
  | .within c b _ => 1 + (deepLengths c + deepLengths b)

/-- The number of instructions of a list, those in bodies included. -/
def deepLengths : List Instruction → Nat
  | [] => 0
  | i :: is => i.deepLength + deepLengths is
end

/-- The list without its own declarations; those in bodies stay. -/
def dropDeclarations (code : List Instruction) : List Instruction :=
  code.filter fun i => !i.isDeclaration

end Instruction

end QuantumLowering
