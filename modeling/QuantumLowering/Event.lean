/-
  Code generation as a stream of events.

  * `Event`: what a generator is told, from the begin of a file to its end.
  * `Instruction.events`: the events of lowered code.  Fresh qubits with an initial value are
    encoded right after their declaration, and identity gates are left out.
  * A compute block runs its compute part, its body, and the compute part again as an adjoint
    region; the second run does not repeat the declarations.
-/
import QuantumLowering.Instruction

namespace QuantumLowering

/-- What a code generator is told. -/
inductive Event
  | beginFile
  | endFile
  | constant (name : ClassicalVariable) (value : ClassicalValue)
  | beginOperation (name : String) (exported : Bool) (params : List ClassicalVariable)
      (registers : List QuantumVariable)
  | endOperation
  /-- An operation implemented elsewhere. -/
  | foreignOperation (name : String) (exported : Bool) (params : List ClassicalVariable)
      (registers : List QuantumVariable)
  | beginProgram (name : String) (params : List ClassicalVariable) (shots : Quantity)
  | endProgram
  /-- A program implemented elsewhere. -/
  | foreignProgram (name : String) (params : List ClassicalVariable)
  | declareFresh (q : Qubits) (size : Quantity)
  | declareJoined (q : Qubits) (parts : List Qubits)
  | declareStrided (q subject : Qubits) (start stop step : Quantity)
  | declareSingle (q subject : Qubits) (index : Quantity)
  | encode (target : Qubits) (value : Quantity)
  | gate (g : Gate) (target : Qubits)
  | call (definition : Definition) (args : List ClassicalValue) (target : Qubits)
  | beginControl (control : Qubits) (condition : Bool)
  | endControl (control : Qubits)
  | beginDagger
  | endDagger
  | measure (target : Qubits)
  | assign (name : ClassicalVariable) (value : ClassicalValue)
  | bind (name : QuantumVariable) (q : Qubits)
  | beginFor (index : ClassicalVariable) (range : LoopRange)
  | endFor
  | beginIf (condition : Condition)
  | beginElse
  | endIf

/-- The events of a declaration; named registers have none. -/
def Qubits.declarationEvents (q : Qubits) : List Event :=
  match q with
  | .register _ => []
  | .fresh _ size none => [.declareFresh q size]
  | .fresh _ size (some init) => [.declareFresh q size, .encode q init]
  | .strided subject start stop step => [.declareStrided q subject start stop step]
  | .single subject index => [.declareSingle q subject index]
  | .joined parts => [.declareJoined q parts]

/-- The events of an action. -/
def Action.events : Action → List Event
  | declare q => q.declarationEvents
  | encode target value => [.encode target value]
  | apply (.gate g) target => if g.isIdentity then [] else [.gate g target]
  | apply (.call d args) target => [.call d args target]
  | beginControl control condition => [.beginControl control condition]
  | endControl control => [.endControl control]
  | beginDagger => [.beginDagger]
  | endDagger => [.endDagger]
  | measure target => [.measure target]
  | assign x value => [.assign x value]
  | bind x q => [.bind x q]

namespace Instruction

mutual
/-- The events of an instruction. -/
def events : Instruction → List Event
  | .act a _ => a.events
  | .loop x r body _ => [.beginFor x r] ++ listEvents body ++ [.endFor]
  | .ifThen c body _ => [.beginIf c] ++ listEvents body ++ [.endIf]
  | .ifElse c onTrue onFalse _ =>
    [.beginIf c] ++ listEvents onTrue ++ [.beginElse] ++ listEvents onFalse ++ [.endIf]
  | .within compute body _ =>
    listEvents compute ++ listEvents body ++
      [.beginDagger] ++ replayEvents compute ++ [.endDagger]

/-- The events of a list of instructions. -/
def listEvents : List Instruction → List Event
  | [] => []
  | i :: is => i.events ++ listEvents is

/-- The events of a list of instructions without its own declarations. -/
def replayEvents : List Instruction → List Event
  | [] => []
  | i :: is => if i.isDeclaration then replayEvents is else i.events ++ replayEvents is
end

end Instruction

end QuantumLowering
