/-
  Blocks that remember their lowering.

  * `CachedBlock`: statements, and the code they were lowered to if nothing changed since.
  * `CachedBlock.push`, `apply`, `append`: change the statements and forget the code.
  * `CachedBlock.decompose`: lowers at most once between two changes; failures are not kept.
-/
import QuantumLowering.Lowering

namespace QuantumLowering

/-- Statements with the code they were last lowered to. -/
structure CachedBlock where
  statements : List Statement
  /-- The code, if nothing changed since it was made. -/
  code : Option (List Instruction)

namespace CachedBlock

/-- No statements. -/
def empty : CachedBlock := ⟨[], none⟩

/-- Statements that were not lowered yet. -/
def ofStatements (statements : List Statement) : CachedBlock := ⟨statements, none⟩

/-- Adds a statement at the end. -/
def push (b : CachedBlock) (s : Statement) : CachedBlock := ⟨b.statements ++ [s], none⟩

/-- Adds an operation call at the end; a refused target changes nothing. -/
def apply (b : CachedBlock) (operation : Operation) (target : Qubits)
    (location : Option Location) : Except FormationError CachedBlock :=
  (Statement.ofCall operation target location).map b.push

/-- Adds the statements of another block at the end. -/
def append (b other : CachedBlock) : CachedBlock := ⟨b.statements ++ other.statements, none⟩

/-- The lowered code, and the block that remembers it. -/
def decompose [Fingerprint] (b : CachedBlock) :
    Except LoweringError (List Instruction) × CachedBlock :=
  match b.code with
  | some code => (.ok code, b)
  | none =>
    match lowerBlock b.statements with
    | .ok code => (.ok code, { b with code := some code })
    | .error e => (.error e, b)

end CachedBlock

end QuantumLowering
