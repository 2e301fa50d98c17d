/-
  Source positions do not influence lowering.

  * `Scopes.use_unlocated`: what is declared before a use does not depend on positions, since
    descriptions are compared without them.
  * `Lowering.Unlocated f x y`: `y` does without positions what `x` does with them.  One rule for
    each way to build a computation.
  * `lowerCall_unlocated`, `lowerStatements_unlocated`: lowering what has no positions does without
    positions what lowering does with them.
  * `unlocated_lowering`: positions can be taken out before or after lowering.
-/
import QuantumLowering.Proofs.Inversion
import QuantumLowering.Proofs.Unlocated

namespace QuantumLowering

/-! ## Declarations -/

namespace Qubits

mutual
theorem unlocated_unlocated : ∀ q : Qubits, q.unlocated.unlocated = q.unlocated
  | .register _ => rfl
  | .fresh _ _ init => by cases init <;> rfl
  | .strided q .. | .single q _ => by
    simp [unlocated, Quantity.unlocated, unlocated_unlocated q]
  | .joined qs => by simp [unlocated, unlocatedList_unlocatedList qs]

theorem unlocatedList_unlocatedList : ∀ qs : List Qubits,
    unlocatedList (unlocatedList qs) = unlocatedList qs
  | [] => rfl
  | q :: qs => by
    simp [unlocatedList, unlocated_unlocated q, unlocatedList_unlocatedList qs]
end

theorem beq_unlocated (q r : Qubits) : (q.unlocated == r.unlocated) = (q == r) := by
  rw [beq_eq, beq_eq, Bool.eq_iff_iff, beq_iff_unlocated, beq_iff_unlocated,
    unlocated_unlocated, unlocated_unlocated]

end Qubits

namespace Scopes

theorem isDeclared_unlocated (s : Scopes) (q : Qubits) :
    s.unlocated.isDeclared q.unlocated = s.isDeclared q := by
  have hframe : ∀ frame : List Qubits,
      (frame.map Qubits.unlocated).contains q.unlocated = frame.contains q := by
    intro frame
    rw [List.contains_eq_any_beq, List.contains_eq_any_beq, List.any_map]
    exact congrArg frame.any (funext fun r => Qubits.beq_unlocated q r)
  simp [isDeclared, frames, unlocated, hframe, Function.comp_def]

theorem declare_unlocated (s : Scopes) (q : Qubits) :
    s.unlocated.declare q.unlocated = (s.declare q).unlocated := rfl

theorem enter_unlocated (s : Scopes) : s.unlocated.enter = s.enter.unlocated := rfl

theorem leave_unlocated (s : Scopes) : s.unlocated.leave = s.leave.unlocated := by
  obtain ⟨_, _ | _⟩ := s <;> rfl

mutual
/-- The same declarations are needed, and the same qubits are declared afterwards. -/
theorem use_unlocated : ∀ (q : Qubits) (s : Scopes), s.unlocated.use q.unlocated =
    ((s.use q).1.map Qubits.unlocated, (s.use q).2.unlocated)
  | .register _, _ => rfl
  | .fresh number size init, s => by
    have h := isDeclared_unlocated s (.fresh number size init)
    rw [Qubits.unlocated] at h ⊢
    rw [use, use, h]
    split <;> rfl
  | .strided q start stop step, s => by
    have h := isDeclared_unlocated s (.strided q start stop step)
    rw [Qubits.unlocated] at h ⊢
    rw [use, use, h, use_unlocated q s]
    split
    · rfl
    · simp [Qubits.unlocated, ← declare_unlocated]
  | .single q index, s => by
    have h := isDeclared_unlocated s (.single q index)
    rw [Qubits.unlocated] at h ⊢
    rw [use, use, h, use_unlocated q s]
    split
    · rfl
    · simp [Qubits.unlocated, ← declare_unlocated]
  | .joined qs, s => by
    have h := isDeclared_unlocated s (.joined qs)
    rw [Qubits.unlocated] at h ⊢
    rw [use, use, h, useAll_unlocated qs s]
    split
    · rfl
    · simp [Qubits.unlocated, ← declare_unlocated]

theorem useAll_unlocated : ∀ (qs : List Qubits) (s : Scopes),
    s.unlocated.useAll (Qubits.unlocatedList qs) =
      ((s.useAll qs).1.map Qubits.unlocated, (s.useAll qs).2.unlocated)
  | [], _ => rfl
  | q :: qs, s => by
    rw [Qubits.unlocatedList, useAll, useAll, use_unlocated q s]
    simp [useAll_unlocated qs]
end

end Scopes

/-! ## Controls -/

namespace Mux

open Instruction (unlocatedList unlocatedList_append unlocatedList_eq_map)

variable {controls : List Qubits} {l : Option Location}

theorem togglesFrom_unlocated {state : Nat} : ∀ (p : Nat) (controls : List Qubits),
    togglesFrom none state p (Qubits.unlocatedList controls) =
      unlocatedList (togglesFrom l state p controls)
  | _, [] => rfl
  | p, control :: controls => by
    rw [Qubits.unlocatedList, togglesFrom, togglesFrom, unlocatedList_append,
      togglesFrom_unlocated (p + 1) controls]
    split <;> rfl

theorem arms_unlocated : ∀ (state : Nat) (blocks : List (List Instruction)),
    arms (Qubits.unlocatedList controls) none state (blocks.map unlocatedList) =
      unlocatedList (arms controls l state blocks)
  | _, [] => rfl
  | state, block :: blocks => by
    have htoggles : toggles (Qubits.unlocatedList controls) none state =
        unlocatedList (toggles controls l state) := by
      rw [toggles, toggles]
      split
      · rfl
      · exact togglesFrom_unlocated 0 controls
    rw [List.map_cons, arms, arms, unlocatedList_append, unlocatedList_append, htoggles,
      arms_unlocated (state + 1) blocks]

/-- Blocks are put under controls at any position. -/
theorem linearize_unlocated (controls : List Qubits) (blocks : List (List Instruction)) :
    linearize (Qubits.unlocatedList controls) (blocks.map unlocatedList) none =
      mapOutcome FormationError.unlocated unlocatedList (linearize controls blocks l) := by
  have hopen : (Qubits.unlocatedList controls).map (openControl none · false) =
      unlocatedList (controls.map (openControl l · false)) := by
    simp [Qubits.unlocatedList_eq_map, unlocatedList_eq_map, openControl, Instruction.unlocated,
      Action.unlocated]
  have hclose : (Qubits.unlocatedList controls).map (closeControl none) =
      unlocatedList (controls.map (closeControl l)) := by
    simp [Qubits.unlocatedList_eq_map, unlocatedList_eq_map, closeControl, Instruction.unlocated,
      Action.unlocated]
  have hlength : (Qubits.unlocatedList controls).length = controls.length := by
    rw [Qubits.unlocatedList_eq_map, List.length_map]
  rw [linearize, linearize, hlength, List.length_map, hopen, hclose, arms_unlocated (l := l)]
  unfold checkShape
  split
  · simp [Except.map, mapOutcome, unlocatedList_append]
  · rfl

end Mux

/-! ## Parts -/

namespace Lowering

variable {op base : Operation} {ops : List Operation} {target : Qubits}
variable {copies partSize index : Quantity} {l own : Option Location}

theorem checkElement_unlocated : checkElement op.unlocated target.unlocated none =
    mapOutcome FormationError.unlocated id (checkElement op target l) := by
  simp only [checkElement, Operation.isDetermined_unlocated, Operation.size_unlocated,
    Qubits.size_unlocated, Quantity.bne_unlocated]
  split
  · simp [mapOutcome, Operation.targetMismatch, FormationError.unlocated, Qubits.size_unlocated]
  · rfl

theorem equalPart_unlocated (op : Operation) :
    equalPart op.unlocated copies.unlocated target.unlocated none =
      mapOutcome LoweringError.unlocated Quantity.unlocated (equalPart op copies target l) := by
  simp only [equalPart, Qubits.size_unlocated, Quantity.divExact?_unlocated]
  cases target.size.divExact? copies with
  | some part => rfl
  | none =>
    simp only [Option.map_none, Quantity.isConstant_unlocated, Operation.render_unlocated,
      Quantity.render_unlocated]
    split <;> rfl

theorem copySize_unlocated :
    copySize base.unlocated copies.unlocated none target.unlocated none =
      mapOutcome LoweringError.unlocated Quantity.unlocated
        (copySize base copies own target l) := by
  rw [copySize, copySize, Operation.isDetermined_unlocated]
  split
  · rw [Operation.size_unlocated]
    rfl
  · exact equalPart_unlocated (.power base copies own)

theorem powerIndex_unlocated [Fingerprint] (op : Operation) :
    powerIndex op.unlocated = powerIndex op := by
  rw [powerIndex, powerIndex, Operation.render_unlocated]

theorem copyPart_unlocated : copyPart target.unlocated partSize.unlocated index.unlocated =
    mapOutcome FormationError.unlocated Qubits.unlocated (copyPart target partSize index) := by
  rw [copyPart, copyPart, Quantity.isConst_unlocated]
  split
  · exact Qubits.element_unlocated
  · exact Qubits.slice_unlocated (partSize * index) (partSize * index + partSize)

theorem resolveArgs_unlocated {d : Definition} {args : List ClassicalValue} :
    resolveArgs d.unlocated (args.map ClassicalValue.unlocated) target.unlocated none =
      mapOutcome LoweringError.unlocated (List.map ClassicalValue.unlocated)
        (resolveArgs d args target l) := by
  simp only [resolveArgs, Definition.hidden_unlocated, Definition.size_unlocated,
    Qubits.size_unlocated, Quantity.solve?_unlocated]
  cases d.hidden with
  | none => rfl
  | some x => cases h : d.size.solve? target.size x <;> simp [h] <;> rfl

theorem knownSize_unlocated : knownSize (Operation.unlocatedList ops) =
    (knownSize ops).unlocated := by
  induction ops with
  | nil => rfl
  | cons op ops ih =>
    rw [Operation.unlocatedList, knownSize, knownSize, Operation.isDetermined_unlocated]
    split
    · rw [Operation.size_unlocated, ih, Quantity.unlocated_add]
    · exact ih

theorem splitSizes_unlocated (op : Operation) :
    splitSizes op.unlocated (Operation.unlocatedList ops) target.unlocated none =
      mapOutcome LoweringError.unlocated (List.map Quantity.unlocated)
        (splitSizes op ops target l) := by
  have hfilter : (Operation.unlocatedList ops).filter (fun op => !op.isDetermined) =
      (ops.filter fun op => !op.isDetermined).map Operation.unlocated := by
    simp [Operation.unlocatedList_eq_map, List.filter_map, Function.comp_def]
  have hsizes : (Operation.unlocatedList ops).map (fun op =>
      if op.isDetermined then op.size
      else target.unlocated.size - knownSize (Operation.unlocatedList ops)) =
      (ops.map fun op => if op.isDetermined then op.size else target.size - knownSize ops).map
        Quantity.unlocated := by
    rw [knownSize_unlocated, Qubits.size_unlocated, Operation.unlocatedList_eq_map, List.map_map,
      List.map_map]
    refine List.map_congr_left fun op _ => ?_
    simp only [Function.comp_apply, Operation.isDetermined_unlocated, Operation.size_unlocated]
    split <;> rfl
  rw [splitSizes, splitSizes, hfilter, hsizes, Operation.render_unlocated]
  generalize ops.filter (fun op => !op.isDetermined) = undetermined
  rcases undetermined with _ | ⟨_, _ | _⟩ <;> rfl

/-! ## Computations -/

variable {α β γ δ : Type}

/-- On the stack without positions, `y` ends like `x`: with the value mapped by `f`, or with the
    same error, and with the same stack, each without positions. -/
def Unlocated (f : α → β) (x : Lowering α) (y : Lowering β) : Prop :=
  ∀ s : Scopes, y s.unlocated = (mapOutcome LoweringError.unlocated f (x s).1, (x s).2.unlocated)

namespace Unlocated

variable {f : α → β} {g : γ → δ} {x : Lowering α} {y : Lowering β}

theorem pure {a : α} {b : β} (h : b = f a) : Unlocated f (Pure.pure a) (Pure.pure b) := by
  subst h
  exact fun _ => rfl

theorem bind {k : α → Lowering γ} {k' : β → Lowering δ} (hx : Unlocated f x y)
    (hk : ∀ a, Unlocated g (k a) (k' (f a))) : Unlocated g (x >>= k) (y >>= k') := by
  intro s
  have hy := hx s
  rcases hxs : x s with ⟨e | a, t⟩ <;> rw [hxs] at hy
  · rw [bind_of_error hxs, bind_of_error hy]
    rfl
  · rw [bind_of_ok hxs, bind_of_ok hy]
    exact hk a t

theorem lift {r : Except LoweringError α} {r' : Except LoweringError β}
    (h : r' = mapOutcome LoweringError.unlocated f r) :
    Unlocated f (liftExcept r) (liftExcept r') := by
  subst h
  cases r <;> exact fun _ => rfl

theorem check {r : Except FormationError α} {r' : Except FormationError β}
    (h : r' = mapOutcome FormationError.unlocated f r) :
    Unlocated f (ofFormation r) (ofFormation r') := by
  subst h
  cases r <;> exact fun _ => rfl

theorem use (q : Qubits) :
    Unlocated Instruction.unlocatedList (use q) (use q.unlocated) := by
  intro s
  rw [Lowering.use, Scopes.use_unlocated, Lowering.use]
  simp [mapOutcome, Instruction.unlocatedList_declarations]

theorem useAll (qs : List Qubits) :
    Unlocated Instruction.unlocatedList (useAll qs) (useAll (Qubits.unlocatedList qs)) := by
  intro s
  rw [Lowering.useAll, Scopes.useAll_unlocated, Lowering.useAll]
  simp [mapOutcome, Instruction.unlocatedList_declarations]

theorem nested (h : Unlocated f x y) : Unlocated f (nested x) (nested y) := by
  intro s
  rw [Lowering.nested, Scopes.enter_unlocated, h s.enter]
  exact Prod.ext rfl (Scopes.leave_unlocated _)

/-- Code behind code. -/
theorem append {x y x' y' : Lowering (List Instruction)}
    (hx : Unlocated Instruction.unlocatedList x y)
    (hx' : Unlocated Instruction.unlocatedList x' y') :
    Unlocated Instruction.unlocatedList
      (do
        let first ← x
        let rest ← x'
        return first ++ rest)
      (do
        let first ← y
        let rest ← y'
        return first ++ rest) :=
  hx.bind fun _ => hx'.bind fun _ => .pure (Instruction.unlocatedList_append _ _).symm

end Unlocated

open Instruction (unlocatedList_append)

theorem lowerPrimitive_unlocated (i : Instruction) :
    Unlocated Instruction.unlocatedList (lowerPrimitive i) (lowerPrimitive i.unlocated) := by
  rw [lowerPrimitive, lowerPrimitive, Instruction.qubits_unlocated, ← Qubits.unlocatedList_eq_map,
    Instruction.isDeclaration_unlocated]
  refine (Unlocated.useAll i.qubits).bind fun before => .pure ?_
  split
  · rfl
  · rw [unlocatedList_append]
    rfl

/-- A call is accepted at any position or at none. -/
theorem ofCall_unlocated (op : Operation) (target : Qubits) (l : Option Location) :
    Statement.ofCall op.unlocated target.unlocated none =
      mapOutcome FormationError.unlocated Statement.unlocated (Statement.ofCall op target l) := by
  simp only [Statement.ofCall, Operation.checkTarget, Operation.isDetermined_unlocated,
    Operation.size_unlocated, Qubits.size_unlocated, Quantity.surelyDiffers_unlocated]
  split
  · simp [Except.map, mapOutcome, Operation.targetMismatch, FormationError.unlocated,
      Qubits.size_unlocated]
    cases op <;> rfl
  · rfl

/-! ## Operations -/

variable [Fingerprint]

mutual
theorem lowerCall_unlocated : ∀ (op : Operation) (target : Qubits) (site : Option Location),
    Unlocated Instruction.unlocatedList (lowerCall target site op)
      (lowerCall target.unlocated none op.unlocated)
  | .elementary (.gate g) own, target, site => by
    rw [Operation.unlocated, Elementary.unlocated, lowerCall, lowerCall, Gate.isIdentity_unlocated]
    split
    · exact .pure rfl
    · refine (Unlocated.use target).bind fun _ => .pure ?_
      rw [unlocatedList_append]
      rfl
  | .elementary (.call d args) own, target, site => by
    rw [Operation.unlocated, Elementary.unlocated, lowerCall, lowerCall]
    refine (Unlocated.lift resolveArgs_unlocated).bind fun args => ?_
    refine (Unlocated.use target).bind fun _ => .pure ?_
    rw [unlocatedList_append]
    rfl
  | .sequence elements own, target, site => by
    rw [Operation.unlocated, lowerCall, lowerCall]
    exact lowerSequence_unlocated elements target _
  | .combination elements own, target, site => by
    rw [Operation.unlocated, lowerCall, lowerCall]
    refine (Unlocated.lift (splitSizes_unlocated (.combination elements own))).bind ?_
    exact fun sizes => lowerParts_unlocated elements target _ (.const 0) sizes
  | .power base copies own, target, site => by
    rw [Operation.unlocated, lowerCall_power_eq, lowerCall_power_eq]
    have hindex := powerIndex_unlocated (.power base copies own)
    rw [Operation.unlocated] at hindex
    rw [hindex]
    refine (Unlocated.lift copySize_unlocated).bind fun partSize => ?_
    refine (Unlocated.use target).bind fun before => ?_
    have hbody : Unlocated Instruction.unlocatedList
        (ofFormation (copyPart target partSize (powerIndex (.power base copies own)).quantity) >>=
          fun part => lowerCall part (site.or own) base)
        (ofFormation (copyPart target.unlocated partSize.unlocated
            (powerIndex (.power base copies own)).quantity) >>=
          fun part => lowerCall part none base.unlocated) :=
      (Unlocated.check copyPart_unlocated).bind fun part => lowerCall_unlocated base part _
    refine hbody.nested.bind fun body => .pure ?_
    rw [unlocatedList_append]
    rfl
  | .adjoint base own, target, site => by
    rw [Operation.unlocated, lowerCall, lowerCall]
    refine (Unlocated.use target).bind fun before => ?_
    refine (lowerCall_unlocated base target (site.or own)).nested.bind fun body => .pure ?_
    simp only [unlocatedList_append]
    rfl
  | .scaled _ base own, target, site => by
    rw [Operation.unlocated, lowerCall, lowerCall]
    exact lowerCall_unlocated base target _
  | .choice control onTrue onFalse own, target, site => by
    rw [Operation.unlocated, lowerCall, lowerCall]
    refine (Unlocated.use control).bind fun before => ?_
    refine (Unlocated.use target).bind fun before' => ?_
    refine (lowerCall_unlocated onFalse target (site.or own)).bind fun whereFalse => ?_
    refine (lowerCall_unlocated onTrue target (site.or own)).bind fun whereTrue => ?_
    refine (Unlocated.check
      (Mux.linearize_unlocated [control] [whereFalse, whereTrue])).bind fun code => .pure ?_
    simp only [unlocatedList_append]

theorem lowerSequence_unlocated : ∀ (ops : List Operation) (target : Qubits)
    (site : Option Location),
    Unlocated Instruction.unlocatedList (lowerSequence target site ops)
      (lowerSequence target.unlocated none (Operation.unlocatedList ops))
  | [], _, _ => by
    rw [Operation.unlocatedList, lowerSequence, lowerSequence]
    exact .pure rfl
  | op :: ops, target, site => by
    rw [Operation.unlocatedList, lowerSequence, lowerSequence]
    refine (Unlocated.check checkElement_unlocated).bind fun _ => ?_
    exact (lowerCall_unlocated op target site).append (lowerSequence_unlocated ops target site)

theorem lowerParts_unlocated : ∀ (ops : List Operation) (target : Qubits)
    (site : Option Location) (start : Quantity) (sizes : List Quantity),
    Unlocated Instruction.unlocatedList (lowerParts target site start sizes ops)
      (lowerParts target.unlocated none start.unlocated (sizes.map Quantity.unlocated)
        (Operation.unlocatedList ops))
  | [], _, _, _, _ => by
    rw [Operation.unlocatedList, lowerParts, lowerParts]
    exact .pure rfl
  | _ :: _, _, _, _, [] => by
    rw [Operation.unlocatedList, List.map_nil, lowerParts, lowerParts]
    exact .pure rfl
  | op :: ops, target, site, start, size :: sizes => by
    rw [Operation.unlocatedList, List.map_cons, lowerParts, lowerParts]
    refine (Unlocated.check (Qubits.slice_unlocated start (start + size))).bind fun part => ?_
    exact (lowerCall_unlocated op part site).append
      (lowerParts_unlocated ops target site (start + size) sizes)
end

/-! ## Statements -/

mutual
theorem lowerStatement_unlocated : ∀ st : Statement,
    Unlocated Instruction.unlocatedList (lowerStatement st) (lowerStatement st.unlocated)
  | .primitive i => by
    rw [Statement.unlocated, lowerStatement, lowerStatement]
    exact lowerPrimitive_unlocated i
  | .call op target site => by
    rw [Statement.unlocated, lowerStatement, lowerStatement]
    exact lowerCall_unlocated op target site
  | .loop _ _ body _ | .ifThen _ body _ => by
    rw [Statement.unlocated, lowerStatement, lowerStatement]
    exact (lowerStatements_unlocated body).nested.bind fun _ => .pure rfl
  | .dagger body _ => by
    rw [Statement.unlocated, lowerStatement, lowerStatement]
    refine (lowerStatements_unlocated body).nested.bind fun _ => .pure ?_
    simp only [unlocatedList_append]
    rfl
  | .ifElse _ onTrue onFalse _ => by
    rw [Statement.unlocated, lowerStatement, lowerStatement]
    refine (lowerStatements_unlocated onTrue).nested.bind fun _ => ?_
    exact (lowerStatements_unlocated onFalse).nested.bind fun _ => .pure rfl
  | .within compute body _ => by
    rw [Statement.unlocated, lowerStatement, lowerStatement]
    have hparts : Unlocated (Prod.map Instruction.unlocatedList Instruction.unlocatedList)
        (do
          let compute ← lowerStatements compute
          let body ← lowerStatements body
          return (compute, body))
        (do
          let compute ← lowerStatements (Statement.unlocatedList compute)
          let body ← lowerStatements (Statement.unlocatedList body)
          return (compute, body)) :=
      (lowerStatements_unlocated compute).bind fun _ =>
        (lowerStatements_unlocated body).bind fun _ => .pure rfl
    exact hparts.nested.bind fun _ => .pure rfl
  | .mux controls blocks _ => by
    rw [Statement.unlocated, lowerStatement, lowerStatement]
    refine (Unlocated.useAll controls).bind fun _ => ?_
    refine (lowerBlocks_unlocated blocks).bind fun blocks => ?_
    refine (Unlocated.check (Mux.linearize_unlocated _ blocks)).bind fun _ => .pure ?_
    exact (unlocatedList_append _ _).symm

theorem lowerStatements_unlocated : ∀ sts : List Statement,
    Unlocated Instruction.unlocatedList (lowerStatements sts)
      (lowerStatements (Statement.unlocatedList sts))
  | [] => by
    rw [Statement.unlocatedList, lowerStatements]
    exact .pure rfl
  | st :: sts => by
    rw [Statement.unlocatedList, lowerStatements, lowerStatements]
    exact (lowerStatement_unlocated st).append (lowerStatements_unlocated sts)

theorem lowerBlocks_unlocated : ∀ bs : List (List Statement),
    Unlocated (List.map Instruction.unlocatedList) (lowerBlocks bs)
      (lowerBlocks (Statement.unlocatedBlocks bs))
  | [] => by
    rw [Statement.unlocatedBlocks, lowerBlocks]
    exact .pure rfl
  | b :: bs => by
    rw [Statement.unlocatedBlocks, lowerBlocks, lowerBlocks]
    refine (lowerStatements_unlocated b).bind fun _ => ?_
    exact (lowerBlocks_unlocated bs).bind fun _ => .pure rfl
end

/-- **Source positions do not influence lowering.**  A block, or a call of an operation, without
    positions is lowered to what it is lowered to with them, positions taken out: the same code or
    the same error, and the same qubits declared.  Such a call is accepted, too, if and only if it is
    with positions. -/
theorem unlocated_lowering (s : Scopes) :
    (∀ sts : List Statement, lowerStatements (Statement.unlocatedList sts) s.unlocated =
        (mapOutcome LoweringError.unlocated Instruction.unlocatedList (lowerStatements sts s).1,
          (lowerStatements sts s).2.unlocated)) ∧
      ∀ (op : Operation) (target : Qubits) (l : Option Location),
        Statement.ofCall op.unlocated target.unlocated none =
            mapOutcome FormationError.unlocated Statement.unlocated
              (Statement.ofCall op target l) ∧
          lowerCall target.unlocated none op.unlocated s.unlocated =
            (mapOutcome LoweringError.unlocated Instruction.unlocatedList
                (lowerCall target l op s).1,
              (lowerCall target l op s).2.unlocated) :=
  ⟨fun sts => lowerStatements_unlocated sts s,
    fun op target l => ⟨ofCall_unlocated op target l, lowerCall_unlocated op target l s⟩⟩

end Lowering

end QuantumLowering
