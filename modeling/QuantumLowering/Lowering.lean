/-
  Lowering: from blocks of statements to lists of primitive instructions.

  * `LoweringError`: why an operation cannot be lowered onto its target.
  * `Lowering`: computations on the declared qubits that may fail; the declarations made before
    a failure stay.
  * `powerIndex`: the index of the loop of a tensor power, which is named by a fingerprint.  How
    texts get their fingerprints is left open.
  * `lowerCall`: expands an operation by its shape until only elementary calls are left.
  * `lowerStatement`, `lowerStatements`: lower statements, a frame for every body.

  Everything is declared before its first use, and not again where it is still declared.
  Loop bodies, branches and adjoint regions have a frame of their own, compute and body of a
  compute block share one, and the blocks of a mux and the branches of a quantum choice use
  the frame around them.
-/
import QuantumLowering.Block
import QuantumLowering.Fingerprint
import QuantumLowering.Scopes

namespace QuantumLowering

/-- Why an operation cannot be lowered onto its target. -/
inductive LoweringError
  | formation (error : FormationError)
  /-- The size of the target does not determine the hidden unknown. -/
  | unsolvable (operation expression targetSize : String) (location : Option Location)
  /-- Several elements of a combination would take their size from the target. -/
  | ambiguousSplit (operation : String) (location : Option Location)
  /-- The target does not fall into so many equal parts. -/
  | unevenSplit (operation targetSize copies : String) (location : Option Location)

namespace LoweringError

/-- The position the error points at. -/
def location : LoweringError → Option Location
  | formation e => e.location
  | unsolvable _ _ _ l | ambiguousSplit _ l | unevenSplit _ _ _ l => l

/-- The error in words, without a position. -/
def reason : LoweringError → String
  | formation e => e.fault.message
  | unsolvable operation expression targetSize _ =>
    "Unable to solve quantum parameter size inference expression '" ++ expression ++
      "' of '" ++ operation ++ "' for target size " ++ targetSize
  | ambiguousSplit operation _ =>
    "Cannot split target between several operations of undetermined size in '" ++
      operation ++ "'"
  | unevenSplit operation targetSize copies _ =>
    "Cannot split target of size " ++ targetSize ++ " into " ++ copies ++
      " equal parts for '" ++ operation ++ "'"

/-- The error in words; only errors of formation name their position. -/
def message : LoweringError → String
  | formation e => e.message
  | e => e.reason

end LoweringError

/-- Computations that declare qubits and may fail; declarations outlive a failure. -/
abbrev Lowering := ExceptT LoweringError (StateM Scopes)

namespace Lowering

/-- Fails where a construction fails. -/
def ofFormation {α : Type} (x : Except FormationError α) : Lowering α :=
  ExceptT.mk (pure (x.mapError .formation))

/-- The declarations that make qubits usable. -/
def use (q : Qubits) : Lowering (List Instruction) := fun s =>
  let (needed, s') := s.use q
  (.ok (declarations needed), s')

/-- The declarations that make each of several qubits usable. -/
def useAll (qs : List Qubits) : Lowering (List Instruction) := fun s =>
  let (needed, s') := s.useAll qs
  (.ok (declarations needed), s')

/-- Runs a computation in a frame of its own, closed again on success and on failure. -/
def nested {α : Type} (x : Lowering α) : Lowering α := fun s =>
  let (result, s') := x s.enter
  (result, s'.leave)

/-! ## Sizes of parts -/

/-- Refuses an element of a product whose determined size is not exactly the target's. -/
def checkElement (element : Operation) (target : Qubits) (location : Option Location) :
    Except FormationError Unit :=
  if element.isDetermined && element.size != target.size then
    .error (element.targetMismatch target location)
  else .ok ()

/-- The size of one of `copies` equal parts of the target. -/
def equalPart (power : Operation) (copies : Quantity) (target : Qubits)
    (location : Option Location) : Except LoweringError Quantity :=
  let size := target.size
  match size.divExact? copies with
  | some part => .ok part
  | none =>
    if size.isConstant && copies.isConstant then
      .error (.unevenSplit power.render size.render copies.render location)
    else .ok (size / copies)

/-- The arguments of a call, the solved hidden unknown in front. -/
def resolveArgs (d : Definition) (args : List ClassicalValue) (target : Qubits)
    (location : Option Location) : Except LoweringError (List ClassicalValue) :=
  match d.hidden with
  | none => .ok args
  | some x =>
    match d.size.solve? target.size x with
    | some value => .ok (.int value :: args)
    | none => .error (.unsolvable d.name d.size.render target.size.render location)

/-- The sum of the determined sizes. -/
def knownSize : List Operation → Quantity
  | [] => .const 0
  | op :: ops => if op.isDetermined then op.size + knownSize ops else knownSize ops

/-- The sizes of the parts of a target, one for each element; at most one element may take
    its size from the target, and it gets what the others leave. -/
def splitSizes (combination : Operation) (elements : List Operation) (target : Qubits)
    (location : Option Location) : Except LoweringError (List Quantity) :=
  match elements.filter fun op => !op.isDetermined with
  | _ :: _ :: _ => .error (.ambiguousSplit combination.render location)
  | _ =>
    .ok (elements.map fun op =>
      if op.isDetermined then op.size else target.size - knownSize elements)

/-- The index of the loop that a tensor power is lowered to, named by the fingerprint of its
    text. -/
def powerIndex [Fingerprint] (power : Operation) : ClassicalVariable :=
  ⟨"ext_iter_" ++ Fingerprint.digits power.render, .int⟩

/-- The part of the target that the copy with this number acts on. -/
def copyPart (target : Qubits) (partSize : Quantity) (index : Quantity) :
    Except FormationError Qubits :=
  if partSize.isConst 1 then target.element index
  else
    let start := partSize * index
    target.slice start (start + partSize)

variable [Fingerprint]

/-! ## Operations -/

mutual
/-- Lowers an operation on a target.  The position of the call wins over the operation's
    own. -/
def lowerCall (target : Qubits) (site : Option Location) :
    Operation → Lowering (List Instruction)
  | .elementary (.gate g) own => do
    if g.isIdentity then return []
    let before ← use target
    return before ++ [.act (.apply (.gate g) target) (site.or own)]
  | .elementary (.call d args) own => do
    let args ← liftExcept (resolveArgs d args target (site.or own))
    let before ← use target
    return before ++ [.act (.apply (.call d args) target) (site.or own)]
  | .sequence elements own => lowerSequence target (site.or own) elements
  | .combination elements own => do
    let sizes ← liftExcept
      (splitSizes (.combination elements own) elements target (site.or own))
    lowerParts target (site.or own) (.const 0) sizes elements
  | .power base copies own => do
    let power := .power base copies own
    let partSize ← if base.isDetermined then pure base.size
      else liftExcept (equalPart power copies target (site.or own))
    let index := powerIndex power
    let before ← use target
    let body ← nested do
      let part ← ofFormation (copyPart target partSize index.quantity)
      lowerCall part (site.or own) base
    return before ++ [.loop index (.upTo (.const 0) copies) body (site.or own)]
  | .adjoint base own => do
    let before ← use target
    let body ← nested (lowerCall target (site.or own) base)
    return before ++ [.act .beginDagger (site.or own)] ++ body ++
      [.act .endDagger (site.or own)]
  | .scaled _ base own => lowerCall target (site.or own) base
  | .choice control onTrue onFalse own => do
    let before ← use control
    let before' ← use target
    let whereFalse ← lowerCall target (site.or own) onFalse
    let whereTrue ← lowerCall target (site.or own) onTrue
    let code ← ofFormation (Mux.linearize [control] [whereFalse, whereTrue] (site.or own))
    return before ++ before' ++ code

/-- Lowers the elements of a product on the same target. -/
def lowerSequence (target : Qubits) (site : Option Location) :
    List Operation → Lowering (List Instruction)
  | [] => pure []
  | op :: ops => do
    ofFormation (checkElement op target site)
    let first ← lowerCall target site op
    let rest ← lowerSequence target site ops
    return first ++ rest

/-- Lowers the elements of a combination on consecutive parts of the target, the first of
    which starts at `start`. -/
def lowerParts (target : Qubits) (site : Option Location) (start : Quantity)
    (sizes : List Quantity) : List Operation → Lowering (List Instruction)
  | [] => pure []
  | op :: ops =>
    match sizes with
    | [] => pure []
    | size :: sizes => do
      let stop := start + size
      let part ← ofFormation (target.slice start stop)
      let first ← lowerCall part site op
      let rest ← lowerParts target site stop sizes ops
      return first ++ rest
end

/-! ## Statements -/

/-- Declares what an instruction names and keeps it; a declaration is only made if it is
    needed. -/
def lowerPrimitive (i : Instruction) : Lowering (List Instruction) := do
  let before ← useAll i.qubits
  return if i.isDeclaration then before else before ++ [i]

mutual
/-- Lowers a statement in the innermost frame. -/
def lowerStatement : Statement → Lowering (List Instruction)
  | .primitive i => lowerPrimitive i
  | .call operation target location => lowerCall target location operation
  | .loop index range body location => do
    let body ← nested (lowerStatements body)
    return [.loop index range body location]
  | .ifThen condition body location => do
    let body ← nested (lowerStatements body)
    return [.ifThen condition body location]
  | .ifElse condition onTrue onFalse location => do
    let onTrue ← nested (lowerStatements onTrue)
    let onFalse ← nested (lowerStatements onFalse)
    return [.ifElse condition onTrue onFalse location]
  | .dagger body location => do
    let body ← nested (lowerStatements body)
    return [.act .beginDagger location] ++ body ++ [.act .endDagger location]
  | .within compute body location => do
    let (compute, body) ← nested do
      let compute ← lowerStatements compute
      let body ← lowerStatements body
      return (compute, body)
    return [.within compute body location]
  | .mux controls blocks location => do
    let before ← useAll controls
    let blocks ← lowerBlocks blocks
    let code ← ofFormation (Mux.linearize controls blocks location)
    return before ++ code

/-- Lowers statements one after another in the innermost frame. -/
def lowerStatements : List Statement → Lowering (List Instruction)
  | [] => pure []
  | s :: ss => do
    let first ← lowerStatement s
    let rest ← lowerStatements ss
    return first ++ rest

/-- Lowers the blocks of a mux one after another in the innermost frame. -/
def lowerBlocks : List (List Statement) → Lowering (List (List Instruction))
  | [] => pure []
  | b :: bs => do
    let first ← lowerStatements b
    let rest ← lowerBlocks bs
    return first :: rest
end

end Lowering

/-- Lowers a block with nothing declared before. -/
def lowerBlock [Fingerprint] (statements : List Statement) :
    Except LoweringError (List Instruction) :=
  (Lowering.lowerStatements statements Scopes.initial).1

end QuantumLowering
