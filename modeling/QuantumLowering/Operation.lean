/-
  Operation expressions: composable descriptions of unitary operations.

  * `Elementary`: a gate, or a call of a user operation.
  * `Operation`: elementary operations, products on the same qubits, combinations on
    consecutive qubits, tensor powers, adjoints, scalings and quantum choices.
  * `Operation.isDetermined`: whether the size is known without the target.
  * `Operation.size`: the number of qubits acted on.
  * `Operation.ofSequence`, `ofCombination`, `ofChoice`, `ofCall`: refuse ill-formed parts.
  * `Operation.checkTarget`: refuses a target of surely different size.
-/
import QuantumLowering.Gate
import QuantumLowering.Qubits.Name

namespace QuantumLowering

/-- A gate, or a call of a user operation with its classical arguments. -/
inductive Elementary
  | gate (g : Gate)
  | call (definition : Definition) (args : List ClassicalValue)
deriving BEq

/-- The name of the gate or of the user operation. -/
def Elementary.name : Elementary → String
  | gate g => g.name
  | call d _ => d.name

/-- An operation; each node has the position it was written at. -/
inductive Operation
  | elementary (e : Elementary) (location : Option Location)
  /-- The elements one after another on the same qubits. -/
  | sequence (elements : List Operation) (location : Option Location)
  /-- The elements on consecutive qubits. -/
  | combination (elements : List Operation) (location : Option Location)
  /-- Copies of one operation on consecutive qubits. -/
  | power (base : Operation) (copies : Quantity) (location : Option Location)
  | adjoint (base : Operation) (location : Option Location)
  | scaled (scalar : Scalar) (base : Operation) (location : Option Location)
  /-- One operation where the control is set, another where it is not. -/
  | choice (control : Qubits) (onTrue onFalse : Operation) (location : Option Location)

namespace Operation

/-- The position of the outermost node. -/
def location : Operation → Option Location
  | elementary _ l | sequence _ l | combination _ l | power _ _ l | adjoint _ l
  | scaled _ _ l | choice _ _ _ l => l

/-- The same operation at another position. -/
def withLocation (op : Operation) (loc : Location) : Operation :=
  match op with
  | elementary e _ => elementary e (some loc)
  | sequence es _ => sequence es (some loc)
  | combination es _ => combination es (some loc)
  | power base copies _ => power base copies (some loc)
  | adjoint base _ => adjoint base (some loc)
  | scaled c base _ => scaled c base (some loc)
  | choice q a b _ => choice q a b (some loc)

/-! ## Sizes -/

/-- Whether a call's size is known without the target: no hidden unknown occurs in it. -/
def callIsDetermined (d : Definition) : Bool :=
  match d.hidden with
  | some x => !d.size.mentions x
  | none => true

mutual
/-- Whether the size is known without the target.  One such element fixes a product; a
    combination needs all of them. -/
def isDetermined : Operation → Bool
  | .elementary (.gate _) _ => true
  | .elementary (.call d _) _ => callIsDetermined d
  | .sequence es _ => anyDetermined es
  | .combination es _ => allDetermined es
  | .power base _ _ => base.isDetermined
  | .adjoint base _ => base.isDetermined
  | .scaled _ base _ => base.isDetermined
  | .choice _ a _ _ => a.isDetermined

/-- Whether some size is known without the target. -/
def anyDetermined : List Operation → Bool
  | [] => false
  | op :: ops => op.isDetermined || anyDetermined ops

/-- Whether every size is known without the target. -/
def allDetermined : List Operation → Bool
  | [] => true
  | op :: ops => op.isDetermined && allDetermined ops
end

mutual
/-- The number of qubits acted on. -/
def size : Operation → Quantity
  | .elementary (.gate g) _ => .const (Int64.ofNat g.qubits)
  | .elementary (.call d _) _ => d.size
  | .sequence es _ => sequenceSize es
  | .combination es _ => totalSize es
  | .power base copies _ => copies * base.size
  | .adjoint base _ => base.size
  | .scaled _ base _ => base.size
  | .choice _ a _ _ => a.size

/-- The size of a product: that of its first determined element, else of its first. -/
def sequenceSize : List Operation → Quantity
  | [] => .const 0
  | op :: ops => if op.isDetermined || !anyDetermined ops then op.size else sequenceSize ops

/-- The sum of the sizes. -/
def totalSize : List Operation → Quantity
  | [] => .const 0
  | op :: ops => op.size + totalSize ops
end

/-! ## Text -/

mutual
/-- The text of an operation. -/
def render : Operation → String
  | .elementary (.gate g) _ => g.render
  | .elementary (.call d []) _ => d.name
  | .elementary (.call d args) _ => d.name ++ "(" ++ ClassicalValue.renderList args ++ ")"
  | .sequence es _ => "[" ++ ", ".intercalate (renderList es) ++ "]"
  | .combination es _ => "(" ++ " . ".intercalate (renderList es) ++ ")"
  | .power base copies _ =>
    base.render ++ "@" ++
      (if copies.isConstant then copies.render else "(" ++ copies.render ++ ")")
  | .adjoint base _ => base.render ++ "+"
  | .scaled c base _ => c.render ++ "*" ++ base.render
  | .choice q a b _ => "qif " ++ q.render ++ " apply " ++ a.render ++ " else " ++ b.render

/-- The texts of several operations. -/
def renderList : List Operation → List String
  | [] => []
  | op :: ops => op.render :: renderList ops
end

/-! ## Equality -/

mutual
/-- Structural equality, positions of operations included. -/
def beq : Operation → Operation → Bool
  | .elementary e l, .elementary f m => e == f && l == m
  | .sequence es l, .sequence fs m => beqList es fs && l == m
  | .combination es l, .combination fs m => beqList es fs && l == m
  | .power a n l, .power b k m => beq a b && n == k && l == m
  | .adjoint a l, .adjoint b m => beq a b && l == m
  | .scaled c a l, .scaled d b m => beq a b && c == d && l == m
  | .choice q a b l, .choice r c d m => q == r && beq a c && beq b d && l == m
  | _, _ => false

/-- `beq` on lists. -/
def beqList : List Operation → List Operation → Bool
  | [], [] => true
  | a :: as, b :: bs => beq a b && beqList as bs
  | _, _ => false
end

instance : BEq Operation := ⟨beq⟩

/-! ## Construction -/

/-- A gate. -/
def ofGate (g : Gate) : Operation := elementary (.gate g) none

/-- A call with as many classical arguments as there are parameters. -/
def ofCall (d : Definition) (args : List ClassicalValue) : Except FormationError Operation :=
  if args.length = d.params.length then .ok (elementary (.call d args) none)
  else .error ⟨.argumentCount d.name d.params.length args.length, d.location⟩

/-- The error for an element whose size surely differs from that of another element. -/
def elementMismatch (op reference : Operation) : FormationError :=
  ⟨.sizeMismatch op.render reference.render op.size.render reference.size.render, op.location⟩

/-- A product of at least one element; the determined elements are compared with the first
    of them. -/
def ofSequence (elements : List Operation) : Except FormationError Operation :=
  if elements.isEmpty then .error ⟨.noElements .sequence, none⟩
  else match elements.find? isDetermined with
    | none => .ok (sequence elements none)
    | some reference =>
      match elements.find? fun op => op.isDetermined && op.size.surelyDiffers reference.size with
      | some op => .error (elementMismatch op reference)
      | none => .ok (sequence elements none)

/-- A combination of at least one element. -/
def ofCombination (elements : List Operation) : Except FormationError Operation :=
  if elements.isEmpty then .error ⟨.noElements .combination, none⟩
  else .ok (combination elements none)

/-- Copies of one operation. -/
def ofPower (base : Operation) (copies : Quantity) : Operation := power base copies none

/-- The conjugate transpose. -/
def ofAdjoint (base : Operation) : Operation := adjoint base none

/-- An operation scaled by a complex number. -/
def ofScaled (scalar : Scalar) (base : Operation) : Operation := scaled scalar base none

/-- A quantum choice between operations that agree on whether their size is determined and,
    if it is, on the size. -/
def ofChoice (control : Qubits) (onTrue onFalse : Operation) : Except FormationError Operation :=
  if onTrue.isDetermined != onFalse.isDetermined then
    .error ⟨.branchDeterminedness, onTrue.location⟩
  else if onTrue.isDetermined && onTrue.size != onFalse.size then
    .error ⟨.branchSizes onTrue.size.render onFalse.size.render, onTrue.location⟩
  else .ok (choice control onTrue onFalse none)

/-- The error for an operation on a target of another size. -/
def targetMismatch (op : Operation) (target : Qubits) (location : Option Location) :
    FormationError :=
  ⟨.sizeMismatch op.render target.render op.size.render target.size.render, location⟩

/-- Refuses a target whose size surely differs from a determined size. -/
def checkTarget (op : Operation) (target : Qubits) (location : Option Location) :
    Except FormationError Unit :=
  if op.isDetermined && op.size.surelyDiffers target.size then
    .error (op.targetMismatch target (location.or op.location))
  else .ok ()

end Operation

end QuantumLowering
