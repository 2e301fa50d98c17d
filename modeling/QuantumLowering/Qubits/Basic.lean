/-
  Which qubits an instruction acts on.

  * `Qubits`: a named register, fresh qubits, a slice or an element of other qubits, or
    several of them joined end to end.
  * `Qubits.size`: how many there are, as a quantity.
  * `Qubits.digest`: bits in which different descriptions differ, by all odds.
  * `Qubits.element`, `Qubits.slice`: refuse bounds that are known to be wrong; a slice of one
    element is that element.
  * `Qubits.parts`: what has to be declared before.

  Parts may be shared: a description of a few nodes can stand for a tree of very many.  So size
  and digest are kept in every node.  Fresh qubits carry a number, which tells two allocations
  apart.
-/
import QuantumLowering.Definition
import QuantumLowering.Symbol.Code

namespace QuantumLowering

/-- A description of some qubits. -/
inductive Qubits
  | register (v : QuantumVariable)
  /-- Newly allocated qubits, told apart by a number, with an optional initial value. -/
  | fresh (number : Nat) (size : Quantity) (init : Option Quantity)
  /-- Every `step`-th qubit from `start` up to, not including, `stop`. -/
  | strided (subject : Qubits) (start stop step : Quantity)
  | single (subject : Qubits) (index : Quantity)
  | joined (parts : List Qubits)
with
  /-- The number of qubits. -/
  @[computed_field] size : Qubits → Quantity
    | .register v => v.size
    | .fresh _ n _ => n
    | .strided _ start stop step => (stop - start) / step
    | .single _ _ => .const 1
    | .joined qs => qs.foldr (fun q n => q.size + n) (.const 0)
  /-- The digest of a node and the digests of its parts, positions left out. -/
  @[computed_field] digest : Qubits → UInt64
    | .register v =>
      Code.digest ("r" ++ Code.name v.name ++ v.size.poly.code ++
        (if v.ownership = .owner then "o" else "r"))
    | .fresh number n init =>
      Code.digest ("a" ++ Code.number number ++ n.poly.code ++
        (match init with | none => "-" | some a => "+" ++ a.poly.code))
    | .strided q start stop step =>
      Code.digest ("s" ++ Code.number q.digest.toNat ++ start.poly.code ++ stop.poly.code ++
        step.poly.code)
    | .single q index => Code.digest ("i" ++ Code.number q.digest.toNat ++ index.poly.code)
    | .joined qs => Code.digest (qs.foldr (fun q s => Code.number q.digest.toNat ++ s) "j")

namespace Qubits

/-! ## Addressing -/

/-- The qubit at an index; a constant index must lie inside a register of constant size. -/
def element (q : Qubits) (index : Quantity) : Except FormationError Qubits :=
  match index.constant? with
  | none => .ok (single q index)
  | some i =>
    match q.size.constant? with
    | some n =>
      if i < 0 ∨ n ≤ i then .error ⟨.indexOutOfBounds i n, index.location⟩
      else .ok (single q index)
    | none =>
      if i < 0 then .error ⟨.indexOutOfBounds i (-1), index.location⟩
      else .ok (single q index)

/-- The bound past a constant register size, if it is known to be. -/
def pastEnd? (q : Qubits) (stop : Quantity) : Option Int64 :=
  match stop.constant?, q.size.constant? with
  | some e, some n => if n < e then some n else none
  | _, _ => none

/-- Every `step`-th qubit from `start` to `stop`, which an inclusive range contains.
    A range known to hold one index gives the qubit at that index. -/
def sliceWith (q : Qubits) (start stop step : Quantity) (inclusive : Bool) :
    Except FormationError Qubits :=
  let location := start.location.or stop.location
  let invalid (fault : SliceFault) : Except FormationError Qubits :=
    .error ⟨.invalidSlice fault, location⟩
  let stop := if inclusive then stop + .const 1 else stop
  if step.constant?.any (· ≤ 0) then invalid (.stepNotPositive step.render)
  else if start.constant?.any (· < 0) then invalid (.negativeStart start.render)
  else
    let span := (stop - start).constant?
    if span.any (· ≤ 0) then invalid (.emptyRange start.render stop.render)
    else if span == some 1 then q.element start
    else match q.pastEnd? stop with
      | some n => invalid (.pastEnd stop.render n)
      | none => .ok (strided q start stop step)

/-- The qubits from `start` up to, not including, `stop`. -/
def slice (q : Qubits) (start stop : Quantity) : Except FormationError Qubits :=
  q.sliceWith start stop (.const 1) false

/-- Whether the qubits have to be declared before they are used; named registers are known. -/
def isDeclarable : Qubits → Bool
  | register _ => false
  | _ => true

/-- What must be usable before the qubits can be declared. -/
def parts : Qubits → List Qubits
  | register _ | fresh .. => []
  | strided q .. | single q _ => [q]
  | joined qs => qs

/-! ## Text -/

mutual
/-- The text of a description. -/
def render : Qubits → String
  | .register v => v.name
  | .fresh _ n none => "alloc(" ++ n.render ++ ")"
  | .fresh _ n (some init) => "alloc(" ++ n.render ++ ", " ++ init.render ++ ")"
  | .strided q start stop step =>
    q.render ++ "[" ++ start.render ++ ":" ++ stop.render ++
      (if step.isConst 1 then "" else ":" ++ step.render) ++ "]"
  | .single q index => q.render ++ "[" ++ index.render ++ "]"
  | .joined qs => "concat(" ++ ", ".intercalate (renderList qs) ++ ")"

/-- The texts of several descriptions. -/
def renderList : List Qubits → List String
  | [] => []
  | q :: qs => q.render :: renderList qs
end

end Qubits

end QuantumLowering
