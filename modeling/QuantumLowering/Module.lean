/-
  Modules: constants and functions, and the code generated for them.

  * `Function`: an operation or a program, with a body unless it is implemented elsewhere.
  * `Module.lower`: lowers every body on its own; one error diagnostic for each that fails.
  * `LoweredModule.events`: constants, then functions, between the begin and the end of a file.
-/
import QuantumLowering.Diagnostic
import QuantumLowering.Listing

namespace QuantumLowering

/-- A constant of a module. -/
structure Constant where
  name : ClassicalVariable
  value : ClassicalValue

/-- What a function is. -/
inductive FunctionKind
  /-- A quantum operation, visible outside the module if exported. -/
  | operation (exported : Bool) (params : List ClassicalVariable)
      (registers : List QuantumVariable)
  /-- An entry point that runs so many times. -/
  | program (params : List ClassicalVariable) (shots : Quantity)

/-- A function; one without a body is implemented elsewhere. -/
structure Function where
  name : String
  kind : FunctionKind
  body : Option (List Statement)
  location : Option Location

/-- Constants and functions in the order of their declarations. -/
structure Module where
  constants : List Constant
  functions : List Function

/-- A function with its lowered body. -/
structure LoweredFunction where
  function : Function
  body : Option (List Instruction)

/-- A module whose bodies are all lowered. -/
structure LoweredModule where
  constants : List Constant
  functions : List LoweredFunction

/-- Lowers the body of a function by itself. -/
def Function.lower [Fingerprint] (f : Function) : Except Diagnostic LoweredFunction :=
  match f.body with
  | none => .ok ⟨f, none⟩
  | some body =>
    match lowerBlock body with
    | .ok code => .ok ⟨f, some code⟩
    | .error e => .error ((Diagnostic.ofLowering e).withDefault f.location)

namespace Module

/-- The functions that are lowered, and the diagnostics of the others. -/
def partition [Fingerprint] : List Function → List LoweredFunction × List Diagnostic
  | [] => ([], [])
  | f :: fs =>
    let (lowered, failed) := partition fs
    match f.lower with
    | .ok g => (g :: lowered, failed)
    | .error d => (lowered, d :: failed)

/-- All functions lowered, or one diagnostic for each that is not. -/
def lower [Fingerprint] (m : Module) : Except (List Diagnostic) LoweredModule :=
  match partition m.functions with
  | (lowered, []) => .ok ⟨m.constants, lowered⟩
  | (_, failed) => .error failed

end Module

/-- The events of a function. -/
def LoweredFunction.events (f : LoweredFunction) : List Event :=
  match f.function.kind, f.body with
  | .operation exported params registers, some code =>
    [.beginOperation f.function.name exported params registers] ++
      Instruction.listEvents code ++ [.endOperation]
  | .operation exported params registers, none =>
    [.foreignOperation f.function.name exported params registers]
  | .program params shots, some code =>
    [.beginProgram f.function.name params shots] ++ Instruction.listEvents code ++ [.endProgram]
  | .program params _, none => [.foreignProgram f.function.name params]

namespace LoweredModule

/-- The events of a module. -/
def events (m : LoweredModule) : List Event :=
  [.beginFile] ++ m.constants.map (fun c => .constant c.name c.value) ++
    m.functions.flatMap LoweredFunction.events ++ [.endFile]

/-- The listing of a module. -/
def listing (settings : Settings) (m : LoweredModule) : String :=
  ((Listing.empty settings).run m.events).text

end LoweredModule

end QuantumLowering
