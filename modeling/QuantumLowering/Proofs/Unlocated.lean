/-
  Values, operations, statements and errors without source positions.

  * `RealExpr.unlocated`, …, `Statement.unlocated`: the same value, no part of it with a position.
  * `FormationError.unlocated`, `LoweringError.unlocated`: the same cause at no position.
  * `mapOutcome`: a value or an error, each mapped by a function of its own.
  * `Operation.size_unlocated`, `Operation.render_unlocated`, `Qubits.slice_unlocated` and
    companions: sizes, texts and checks are those of what has positions.

  A quantity takes the position of its left operand, else that of the right one; so to operate on
  quantities without positions gives one without a position.
-/
import QuantumLowering.Proofs.Positions
import QuantumLowering.Lowering

namespace QuantumLowering

/-! ## Outcomes -/

/-- The outcome with the value mapped by `f` and the error by `g`. -/
def mapOutcome {ε ε' α β : Type} (g : ε → ε') (f : α → β) : Except ε α → Except ε' β
  | .error e => .error (g e)
  | .ok a => .ok (f a)

/-- The same fault, without a position. -/
def FormationError.unlocated (e : FormationError) : FormationError := { e with location := none }

/-- The same error, without a position. -/
def LoweringError.unlocated : LoweringError → LoweringError
  | formation e => formation e.unlocated
  | unsolvable operation expression targetSize _ =>
    unsolvable operation expression targetSize none
  | ambiguousSplit operation _ => ambiguousSplit operation none
  | unevenSplit operation targetSize copies _ => unevenSplit operation targetSize copies none

/-! ## Quantities -/

namespace Quantity

variable {a b : Quantity} {x : String} {c : Int64}

@[simp] theorem unlocated_const : (const c).unlocated = const c := rfl

@[simp] theorem constant?_unlocated : a.unlocated.constant? = a.constant? := rfl

@[simp] theorem isConstant_unlocated : a.unlocated.isConstant = a.isConstant := rfl

@[simp] theorem isConst_unlocated : a.unlocated.isConst c = a.isConst c := rfl

@[simp] theorem mentions_unlocated : a.unlocated.mentions x = a.mentions x := rfl

@[simp] theorem render_unlocated : a.unlocated.render = a.render := rfl

@[simp] theorem surelyDiffers_unlocated :
    a.unlocated.surelyDiffers b.unlocated = a.surelyDiffers b := rfl

@[simp] theorem bne_unlocated : (a.unlocated != b.unlocated) = (a != b) := rfl

theorem unlocated_add : (a + b).unlocated = a.unlocated + b.unlocated := rfl

theorem unlocated_sub : (a - b).unlocated = a.unlocated - b.unlocated := rfl

theorem unlocated_mul : (a * b).unlocated = a.unlocated * b.unlocated := rfl

theorem unlocated_div : (a / b).unlocated = a.unlocated / b.unlocated := rfl

theorem divExact?_unlocated :
    a.unlocated.divExact? b.unlocated = (a.divExact? b).map unlocated := by
  rw [divExact?, divExact?, Option.map_map]
  rfl

theorem linearIn?_unlocated : a.unlocated.linearIn? x = a.linearIn? x := rfl

/-- The solution of an equation does not depend on where its sides were written. -/
theorem solve?_unlocated :
    a.unlocated.solve? b.unlocated x = (a.solve? b x).map unlocated := by
  rw [solve?, solve?, linearIn?_unlocated]
  cases a.linearIn? x with
  | none => rfl
  | some ck =>
    obtain ⟨c, k⟩ := ck
    have hrest : (b.unlocated - const c).constant? = (b - const c).constant? := rfl
    simp only [hrest]
    cases (b - const c).constant? with
    | none => rfl
    | some r =>
      simp only
      split <;> rfl

end Quantity

/-! ## Classical values -/

/-- The same expression without positions. -/
def RealExpr.unlocated : RealExpr → RealExpr
  | const v => const v
  | var x => var x
  | pi => pi
  | ofInt i => ofInt i.unlocated
  | neg a => neg a.unlocated
  | add a b => add a.unlocated b.unlocated
  | sub a b => sub a.unlocated b.unlocated
  | mul a b => mul a.unlocated b.unlocated
  | div a b => div a.unlocated b.unlocated

@[simp] theorem RealExpr.render_unlocated (a : RealExpr) : a.unlocated.render = a.render := by
  induction a <;> simp_all [unlocated, render]

/-- The same scalar without positions. -/
def Scalar.unlocated : Scalar → Scalar
  | const re im => const re im
  | polar magnitude phase => polar magnitude.unlocated phase.unlocated

@[simp] theorem Scalar.render_unlocated (c : Scalar) : c.unlocated.render = c.render := by
  cases c <;> simp [unlocated, render]

/-- The same condition without positions. -/
def Condition.unlocated : Condition → Condition
  | const b => const b
  | var x => var x
  | not a => not a.unlocated
  | and a b => and a.unlocated b.unlocated
  | or a b => or a.unlocated b.unlocated
  | compare r a b => compare r a.unlocated b.unlocated

@[simp] theorem Condition.render_unlocated (a : Condition) : a.unlocated.render = a.render := by
  induction a <;> simp_all [unlocated, render]

/-- The same value without positions. -/
def ClassicalValue.unlocated : ClassicalValue → ClassicalValue
  | int v => int v.unlocated
  | float v => float v.unlocated
  | bool v => bool v.unlocated
  | complex v => complex v.unlocated

@[simp] theorem ClassicalValue.render_unlocated (v : ClassicalValue) :
    v.unlocated.render = v.render := by
  cases v <;> simp [unlocated, render]

@[simp] theorem ClassicalValue.renderList_unlocated (args : List ClassicalValue) :
    renderList (args.map unlocated) = renderList args := by
  simp [renderList, Function.comp_def]

/-- The same range without positions. -/
def LoopRange.unlocated (r : LoopRange) : LoopRange :=
  { r with start := r.start.unlocated, stop := r.stop.unlocated, step := r.step.unlocated }

/-! ## Gates and definitions -/

/-- The same gate, its parameters without positions. -/
def Gate.unlocated : Gate → Gate
  | p a => p a.unlocated
  | rx a => rx a.unlocated
  | ry a => ry a.unlocated
  | rz a => rz a.unlocated
  | rn nx ny nz a => rn nx.unlocated ny.unlocated nz.unlocated a.unlocated
  | u a b c => u a.unlocated b.unlocated c.unlocated
  | g => g

@[simp] theorem Gate.qubits_unlocated (g : Gate) : g.unlocated.qubits = g.qubits := by
  cases g <;> rfl

@[simp] theorem Gate.isIdentity_unlocated (g : Gate) : g.unlocated.isIdentity = g.isIdentity := by
  cases g <;> rfl

@[simp] theorem Gate.render_unlocated (g : Gate) : g.unlocated.render = g.render := by
  cases g <;> simp [unlocated, render, parameters, name]

/-- The same definition without a position. -/
def Definition.unlocated (d : Definition) : Definition :=
  { d with
    parameter := { d.parameter with register := d.parameter.register.unlocated }
    location := none }

namespace Definition

@[simp] theorem name_unlocated (d : Definition) : d.unlocated.name = d.name := rfl

@[simp] theorem hidden_unlocated (d : Definition) : d.unlocated.hidden = d.hidden := rfl

@[simp] theorem size_unlocated (d : Definition) : d.unlocated.size = d.size.unlocated := rfl

end Definition

/-! ## Qubits -/

namespace Qubits

mutual
theorem size_unlocated : ∀ q : Qubits, q.unlocated.size = q.size.unlocated
  | .register _ | .fresh .. | .single .. => by simp [unlocated, size, QuantumVariable.unlocated]
  | .strided .. => by
    rw [unlocated, size, size, Quantity.unlocated_div, Quantity.unlocated_sub]
  | .joined qs => by
    rw [unlocated, size, size]
    exact totalSize_unlocatedList qs

theorem totalSize_unlocatedList : ∀ qs : List Qubits,
    (unlocatedList qs).foldr (fun q n => q.size + n) (.const 0) =
      (qs.foldr (fun q n => q.size + n) (Quantity.const 0)).unlocated
  | [] => rfl
  | q :: qs => by
    rw [unlocatedList, List.foldr_cons, List.foldr_cons, Quantity.unlocated_add, size_unlocated q,
      totalSize_unlocatedList qs]
end

mutual
@[simp] theorem render_unlocated : ∀ q : Qubits, q.unlocated.render = q.render
  | .register _ => by simp [unlocated, render, QuantumVariable.unlocated]
  | .fresh _ _ init => by cases init <;> simp [unlocated, render]
  | .strided q .. => by
    rw [unlocated, render, render, render_unlocated q]
    rfl
  | .single q _ => by simp [unlocated, render, render_unlocated q]
  | .joined qs => by simp [unlocated, render, renderList_unlocated qs]

theorem renderList_unlocated : ∀ qs : List Qubits, renderList (unlocatedList qs) = renderList qs
  | [] => rfl
  | q :: qs => by simp [unlocatedList, renderList, render_unlocated q, renderList_unlocated qs]
end

variable {q : Qubits} {index start stop : Quantity}

theorem element_unlocated : q.unlocated.element index.unlocated =
    mapOutcome FormationError.unlocated unlocated (q.element index) := by
  simp only [element, size_unlocated, Quantity.constant?_unlocated]
  split
  · rfl
  · split <;> split <;> rfl

/-- A slice is refused for the same reason, and its bounds are the same. -/
theorem slice_unlocated (start stop : Quantity) :
    q.unlocated.slice start.unlocated stop.unlocated =
      mapOutcome FormationError.unlocated unlocated (q.slice start stop) := by
  have hend : q.unlocated.pastEnd? stop.unlocated = q.pastEnd? stop := by
    simp only [pastEnd?, size_unlocated, Quantity.constant?_unlocated]
  simp only [slice, sliceWith, Bool.false_eq_true, if_false, ← Quantity.unlocated_sub,
    Quantity.constant?_unlocated, hend]
  split
  · rfl
  split
  · rfl
  split
  · rfl
  split
  · exact element_unlocated
  · split <;> rfl

end Qubits

/-! ## Operations -/

/-- The same elementary operation without positions. -/
def Elementary.unlocated : Elementary → Elementary
  | gate g => gate g.unlocated
  | call d args => call d.unlocated (args.map ClassicalValue.unlocated)

namespace Operation

mutual
/-- The same operation without positions. -/
def unlocated : Operation → Operation
  | .elementary e _ => .elementary e.unlocated none
  | .sequence es _ => .sequence (unlocatedList es) none
  | .combination es _ => .combination (unlocatedList es) none
  | .power base copies _ => .power base.unlocated copies.unlocated none
  | .adjoint base _ => .adjoint base.unlocated none
  | .scaled c base _ => .scaled c.unlocated base.unlocated none
  | .choice q a b _ => .choice q.unlocated a.unlocated b.unlocated none

/-- `unlocated` on each of several operations. -/
def unlocatedList : List Operation → List Operation
  | [] => []
  | op :: ops => op.unlocated :: unlocatedList ops
end

theorem unlocatedList_eq_map (ops : List Operation) : unlocatedList ops = ops.map unlocated := by
  induction ops with
  | nil => rfl
  | cons op ops ih => rw [unlocatedList, ih, List.map_cons]

mutual
@[simp] theorem isDetermined_unlocated : ∀ op : Operation,
    op.unlocated.isDetermined = op.isDetermined
  | .elementary (.gate _) _ => rfl
  | .elementary (.call _ _) _ => by
    simp [unlocated, Elementary.unlocated, isDetermined, callIsDetermined]
  | .sequence es _ => anyDetermined_unlocated es
  | .combination es _ => allDetermined_unlocated es
  | .power base _ _ | .adjoint base _ | .scaled _ base _ => isDetermined_unlocated base
  | .choice _ a _ _ => isDetermined_unlocated a

theorem anyDetermined_unlocated : ∀ ops : List Operation,
    anyDetermined (unlocatedList ops) = anyDetermined ops
  | [] => rfl
  | op :: ops => by
    simp [unlocatedList, anyDetermined, isDetermined_unlocated op, anyDetermined_unlocated ops]

theorem allDetermined_unlocated : ∀ ops : List Operation,
    allDetermined (unlocatedList ops) = allDetermined ops
  | [] => rfl
  | op :: ops => by
    simp [unlocatedList, allDetermined, isDetermined_unlocated op, allDetermined_unlocated ops]
end

mutual
@[simp] theorem size_unlocated : ∀ op : Operation, op.unlocated.size = op.size.unlocated
  | .elementary (.gate _) _ => by simp [unlocated, Elementary.unlocated, size]
  | .elementary (.call _ _) _ => rfl
  | .sequence es _ => sequenceSize_unlocated es
  | .combination es _ => totalSize_unlocated es
  | .power base _ _ => by
    rw [unlocated, size, size, Quantity.unlocated_mul, size_unlocated base]
  | .adjoint base _ | .scaled _ base _ => size_unlocated base
  | .choice _ a _ _ => size_unlocated a

theorem sequenceSize_unlocated : ∀ ops : List Operation,
    sequenceSize (unlocatedList ops) = (sequenceSize ops).unlocated
  | [] => rfl
  | op :: ops => by
    rw [unlocatedList, sequenceSize, sequenceSize, isDetermined_unlocated,
      anyDetermined_unlocated]
    split
    · exact size_unlocated op
    · exact sequenceSize_unlocated ops

theorem totalSize_unlocated : ∀ ops : List Operation,
    totalSize (unlocatedList ops) = (totalSize ops).unlocated
  | [] => rfl
  | op :: ops => by
    rw [unlocatedList, totalSize, totalSize, Quantity.unlocated_add, size_unlocated op,
      totalSize_unlocated ops]
end

mutual
@[simp] theorem render_unlocated : ∀ op : Operation, op.unlocated.render = op.render
  | .elementary (.gate _) _ => by simp [unlocated, Elementary.unlocated, render]
  | .elementary (.call _ []) _ => rfl
  | .elementary (.call d (v :: vs)) l => by
    have hargs := ClassicalValue.renderList_unlocated (v :: vs)
    rw [List.map_cons] at hargs
    simp [unlocated, Elementary.unlocated, render, hargs]
  | .sequence es _ | .combination es _ => by simp [unlocated, render, renderList_unlocated es]
  | .power base _ _ => by
    rw [unlocated, render, render, render_unlocated base]
    rfl
  | .adjoint base _ | .scaled _ base _ => by simp [unlocated, render, render_unlocated base]
  | .choice _ a b _ => by simp [unlocated, render, render_unlocated a, render_unlocated b]

theorem renderList_unlocated : ∀ ops : List Operation,
    renderList (unlocatedList ops) = renderList ops
  | [] => rfl
  | op :: ops => by
    simp [unlocatedList, renderList, render_unlocated op, renderList_unlocated ops]
end

end Operation

/-! ## Code -/

/-- The same action without positions. -/
def Action.unlocated : Action → Action
  | declare q => declare q.unlocated
  | encode q v => encode q.unlocated v.unlocated
  | apply e q => apply e.unlocated q.unlocated
  | beginControl q c => beginControl q.unlocated c
  | endControl q => endControl q.unlocated
  | beginDagger => beginDagger
  | endDagger => endDagger
  | measure q => measure q.unlocated
  | assign x v => assign x v.unlocated
  | bind x q => bind x.unlocated q.unlocated

theorem Action.qubits_unlocated (a : Action) :
    a.unlocated.qubits = a.qubits.map Qubits.unlocated := by
  cases a <;> rfl

namespace Instruction

mutual
/-- The same instruction without positions. -/
def unlocated : Instruction → Instruction
  | .act a _ => .act a.unlocated none
  | .loop x r body _ => .loop x r.unlocated (unlocatedList body) none
  | .ifThen c body _ => .ifThen c.unlocated (unlocatedList body) none
  | .ifElse c onTrue onFalse _ =>
    .ifElse c.unlocated (unlocatedList onTrue) (unlocatedList onFalse) none
  | .within compute body _ => .within (unlocatedList compute) (unlocatedList body) none

/-- `unlocated` on each of several instructions. -/
def unlocatedList : List Instruction → List Instruction
  | [] => []
  | i :: is => i.unlocated :: unlocatedList is
end

theorem unlocatedList_eq_map (code : List Instruction) :
    unlocatedList code = code.map unlocated := by
  induction code with
  | nil => rfl
  | cons i is ih => rw [unlocatedList, ih, List.map_cons]

theorem unlocatedList_append (a b : List Instruction) :
    unlocatedList (a ++ b) = unlocatedList a ++ unlocatedList b := by
  simp [unlocatedList_eq_map]

theorem unlocatedList_declarations (qs : List Qubits) :
    unlocatedList (declarations qs) = declarations (qs.map Qubits.unlocated) := by
  simp [unlocatedList_eq_map, declarations, unlocated, Action.unlocated]

theorem isDeclaration_unlocated (i : Instruction) :
    i.unlocated.isDeclaration = i.isDeclaration := by
  rcases i with ⟨a, _⟩ | _ | _ | _ | _
  · cases a <;> rfl
  all_goals rfl

theorem qubits_unlocated (i : Instruction) :
    i.unlocated.qubits = i.qubits.map Qubits.unlocated := by
  cases i with
  | act a _ => exact a.qubits_unlocated
  | _ => rfl

end Instruction

namespace Statement

mutual
/-- The same statement without positions. -/
def unlocated : Statement → Statement
  | .primitive i => .primitive i.unlocated
  | .call op target _ => .call op.unlocated target.unlocated none
  | .loop x r body _ => .loop x r.unlocated (unlocatedList body) none
  | .ifThen c body _ => .ifThen c.unlocated (unlocatedList body) none
  | .ifElse c onTrue onFalse _ =>
    .ifElse c.unlocated (unlocatedList onTrue) (unlocatedList onFalse) none
  | .dagger body _ => .dagger (unlocatedList body) none
  | .within compute body _ => .within (unlocatedList compute) (unlocatedList body) none
  | .mux controls blocks _ => .mux (Qubits.unlocatedList controls) (unlocatedBlocks blocks) none

/-- `unlocated` on each of several statements. -/
def unlocatedList : List Statement → List Statement
  | [] => []
  | st :: sts => st.unlocated :: unlocatedList sts

/-- `unlocatedList` on each of several blocks. -/
def unlocatedBlocks : List (List Statement) → List (List Statement)
  | [] => []
  | b :: bs => unlocatedList b :: unlocatedBlocks bs
end

end Statement

/-! ## Stacks -/

/-- The same stack, the declared qubits without positions. -/
def Scopes.unlocated (s : Scopes) : Scopes :=
  ⟨s.innermost.map Qubits.unlocated, s.outer.map (List.map Qubits.unlocated)⟩

end QuantumLowering
