/-
  What is declared decides about declarations only.

  * `Instruction.bareAll`: a list without declarations, at every depth.
  * `Lowering.Alike view x y`: on any two stacks `x` and `y` fail with the same error or return
    values with the same view.  One rule for each way to build a computation.
  * `lowerCall_alike`, `lowerStatements_alike`: all lowering is alike to itself, with code seen
    without its declarations.
  * `bare_lowering`: two lowerings of the same code, whatever was declared before each of them,
    differ in declarations only.
-/
import QuantumLowering.Proofs.Inversion
import QuantumLowering.Proofs.Multiplexing

namespace QuantumLowering

/-! ## Code without declarations -/

namespace Instruction

mutual
/-- An instruction without the declarations in its bodies. -/
def bare : Instruction → Instruction
  | .act a l => .act a l
  | .loop x r body l => .loop x r (bareAll body) l
  | .ifThen c body l => .ifThen c (bareAll body) l
  | .ifElse c onTrue onFalse l => .ifElse c (bareAll onTrue) (bareAll onFalse) l
  | .within compute body l => .within (bareAll compute) (bareAll body) l

/-- A list without its declarations and those in bodies. -/
def bareAll : List Instruction → List Instruction
  | [] => []
  | i :: is => if i.isDeclaration then bareAll is else i.bare :: bareAll is
end

variable {a b code : List Instruction}

@[simp] theorem bareAll_append : bareAll (a ++ b) = bareAll a ++ bareAll b := by
  induction a with
  | nil => rfl
  | cons i is ih =>
    rw [List.cons_append, bareAll, bareAll, ih]
    split <;> rfl

@[simp] theorem bareAll_declarations {qs : List Qubits} : bareAll (declarations qs) = [] := by
  induction qs with
  | nil => rfl
  | cons q qs ih => simpa [declarations, bareAll, isDeclaration] using ih

/-- Control markers stay. -/
theorem bareAll_of_isControl (h : ∀ i ∈ code, i.isControl) : bareAll code = code := by
  induction code with
  | nil => rfl
  | cons i is ih =>
    have hi : i.isControl := h i List.mem_cons_self
    have hbare : i.isDeclaration = false ∧ i.bare = i := by
      rcases i with ⟨a, l⟩ | _ | _ | _ | _
      · cases a <;> first | exact ⟨rfl, rfl⟩ | simp [isControl] at hi
      all_goals simp [isControl] at hi
    rw [bareAll, hbare.1, hbare.2, ih fun j hj => h j (List.mem_cons_of_mem _ hj)]
    rfl

end Instruction

open Instruction

namespace Mux

variable {controls : List Qubits} {l : Option Location}

theorem bareAll_arms : ∀ (state : Nat) (blocks : List (List Instruction)),
    bareAll (arms controls l state blocks) = arms controls l state (blocks.map bareAll)
  | _, [] => rfl
  | state, block :: blocks => by
    have htoggles : bareAll (toggles controls l state) = toggles controls l state :=
      bareAll_of_isControl fun _ hi => isControl_of_mem_toggles hi
    rw [List.map_cons, arms, arms, bareAll_append, bareAll_append, htoggles, bareAll_arms]

/-- Declarations can be taken out of the blocks before or after they are put under controls. -/
theorem map_bareAll_linearize (controls : List Qubits) (blocks : List (List Instruction))
    (l : Option Location) :
    (linearize controls blocks l).map bareAll = linearize controls (blocks.map bareAll) l := by
  have hopen : bareAll (controls.map (openControl l · false)) =
      controls.map (openControl l · false) :=
    bareAll_of_isControl fun _ hi => isControl_of_mem_open hi
  have hclose : bareAll (controls.map (closeControl l)) = controls.map (closeControl l) :=
    bareAll_of_isControl fun _ hi => isControl_of_mem_close hi
  rw [linearize, linearize, List.length_map]
  cases checkShape controls.length blocks.length with
  | error => rfl
  | ok =>
    refine congrArg Except.ok ?_
    rw [bareAll_append, bareAll_append, hopen, hclose, bareAll_arms]

end Mux

/-! ## Computations -/

namespace Lowering

variable {α β γ δ : Type}

/-- On any two stacks the computations fail with the same error, or return values with the same
    view. -/
def Alike (view : α → γ) (x y : Lowering α) : Prop :=
  ∀ s t, (x s).1.map view = (y t).1.map view

namespace Alike

variable {view : α → γ} {view' : β → δ}

theorem pure {a b : α} (h : view a = view b) : Alike view (Pure.pure a) (Pure.pure b) :=
  fun _ _ => congrArg Except.ok h

theorem bind {x y : Lowering α} {f g : α → Lowering β} (hx : Alike view x y)
    (hf : ∀ a b, view a = view b → Alike view' (f a) (g b)) :
    Alike view' (x >>= f) (y >>= g) := by
  intro s t
  have hview := hx s t
  rcases hxs : x s with ⟨e | a, s'⟩ <;> rcases hyt : y t with ⟨e' | b, t'⟩ <;>
    rw [hxs, hyt] at hview
  · rw [bind_of_error hxs, bind_of_error hyt]
    rw [Except.error.inj hview]
  · cases hview
  · cases hview
  · rw [bind_of_ok hxs, bind_of_ok hyt]
    exact hf a b (Except.ok.inj hview) s' t'

theorem lift {x : Except LoweringError α} {f g : α → Lowering β}
    (hf : ∀ a, Alike view' (f a) (g a)) : Alike view' (liftExcept x >>= f) (liftExcept x >>= g) := by
  have hx : Alike id (liftExcept x) (liftExcept x) := fun _ _ => by cases x <;> rfl
  refine hx.bind ?_
  rintro a _ rfl
  exact hf a

theorem check {x y : Except FormationError α} (h : x.map view = y.map view) :
    Alike view (ofFormation x) (ofFormation y) := by
  intro _ _
  rcases x with e | a <;> rcases y with e' | b
  · rw [Except.error.inj h]
    rfl
  · cases h
  · cases h
  · exact congrArg Except.ok (Except.ok.inj h)

/-- The same check on both sides. -/
theorem checked {x : Except FormationError α} {f g : α → Lowering β}
    (hf : ∀ a, Alike view' (f a) (g a)) :
    Alike view' (ofFormation x >>= f) (ofFormation x >>= g) := by
  have hx : Alike id (ofFormation x) (ofFormation x) := check rfl
  refine hx.bind ?_
  rintro a _ rfl
  exact hf a

theorem use (q : Qubits) : Alike bareAll (use q) (use q) := fun _ _ =>
  congrArg Except.ok (bareAll_declarations.trans bareAll_declarations.symm)

theorem useAll (qs : List Qubits) : Alike bareAll (useAll qs) (useAll qs) := fun _ _ =>
  congrArg Except.ok (bareAll_declarations.trans bareAll_declarations.symm)

theorem nested {x y : Lowering α} (h : Alike view x y) : Alike view (nested x) (nested y) :=
  fun s t => h s.enter t.enter

/-- Code behind code, each seen without declarations. -/
theorem append {x y x' y' : Lowering (List Instruction)} (hx : Alike bareAll x y)
    (hx' : Alike bareAll x' y') :
    Alike bareAll
      (do
        let first ← x
        let rest ← x'
        return first ++ rest)
      (do
        let first ← y
        let rest ← y'
        return first ++ rest) :=
  hx.bind fun _ _ h => hx'.bind fun _ _ h' => .pure (by rw [bareAll_append, bareAll_append, h, h'])

end Alike

theorem alike_linearize {controls : List Qubits} {blocks blocks' : List (List Instruction)}
    {l : Option Location} (h : blocks.map bareAll = blocks'.map bareAll) :
    Alike bareAll (ofFormation (Mux.linearize controls blocks l))
      (ofFormation (Mux.linearize controls blocks' l)) :=
  .check (by rw [Mux.map_bareAll_linearize, Mux.map_bareAll_linearize, h])

theorem lowerPrimitive_alike (i : Instruction) :
    Alike bareAll (lowerPrimitive i) (lowerPrimitive i) := by
  refine (Alike.useAll i.qubits).bind fun before before' h => .pure ?_
  split
  · exact h
  · rw [bareAll_append, bareAll_append, h]

/-! ## Operations -/

variable [Fingerprint]

mutual
/-- The code of an operation depends on the stack in its declarations only. -/
theorem lowerCall_alike : ∀ (op : Operation) (target : Qubits) (site : Option Location),
    Alike bareAll (lowerCall target site op) (lowerCall target site op)
  | .elementary (.gate g) own, target, site => by
    rw [lowerCall]
    split
    · exact .pure rfl
    · exact (Alike.use target).bind fun _ _ h => .pure (by rw [bareAll_append, bareAll_append, h])
  | .elementary (.call d args) own, target, site => by
    rw [lowerCall]
    refine .lift fun args => ?_
    exact (Alike.use target).bind fun _ _ h => .pure (by rw [bareAll_append, bareAll_append, h])
  | .sequence elements own, target, site => by
    rw [lowerCall]
    exact lowerSequence_alike elements target _
  | .combination elements own, target, site => by
    rw [lowerCall]
    exact .lift fun sizes => lowerParts_alike elements target _ _ sizes
  | .power base copies own, target, site => by
    rw [lowerCall_power_eq]
    refine .lift fun partSize => (Alike.use target).bind fun before before' h => ?_
    have hbody : Alike bareAll
        (ofFormation (copyPart target partSize (powerIndex (.power base copies own)).quantity) >>=
          fun part => lowerCall part (site.or own) base)
        (ofFormation (copyPart target partSize (powerIndex (.power base copies own)).quantity) >>=
          fun part => lowerCall part (site.or own) base) :=
      .checked fun part => lowerCall_alike base part _
    refine hbody.nested.bind fun body body' hb => .pure ?_
    simp [bareAll, bare, isDeclaration, h, hb]
  | .adjoint base own, target, site => by
    rw [lowerCall]
    refine (Alike.use target).bind fun before before' h => ?_
    refine (lowerCall_alike base target _).nested.bind fun body body' hb => .pure ?_
    simp [bareAll, bare, isDeclaration, h, hb]
  | .scaled _ base own, target, site => by
    rw [lowerCall]
    exact lowerCall_alike base target _
  | .choice control onTrue onFalse own, target, site => by
    rw [lowerCall]
    refine (Alike.use control).bind fun before _ h => ?_
    refine (Alike.use target).bind fun before' _ h' => ?_
    refine (lowerCall_alike onFalse target _).bind fun whereFalse _ hFalse => ?_
    refine (lowerCall_alike onTrue target _).bind fun whereTrue _ hTrue => ?_
    refine (alike_linearize (by simp [hFalse, hTrue])).bind fun code _ hcode => .pure ?_
    simp [h, h', hcode]

theorem lowerSequence_alike : ∀ (ops : List Operation) (target : Qubits) (site : Option Location),
    Alike bareAll (lowerSequence target site ops) (lowerSequence target site ops)
  | [], _, _ => by
    rw [lowerSequence]
    exact .pure rfl
  | op :: ops, target, site => by
    rw [lowerSequence]
    refine .checked fun _ => ?_
    exact (lowerCall_alike op target site).append (lowerSequence_alike ops target site)

theorem lowerParts_alike : ∀ (ops : List Operation) (target : Qubits) (site : Option Location)
    (start : Quantity) (sizes : List Quantity),
    Alike bareAll (lowerParts target site start sizes ops) (lowerParts target site start sizes ops)
  | [], _, _, _, _ => by
    rw [lowerParts]
    exact .pure rfl
  | _ :: _, _, _, _, [] => by
    rw [lowerParts]
    exact .pure rfl
  | op :: ops, target, site, start, size :: sizes => by
    rw [lowerParts]
    refine .checked fun part => ?_
    exact (lowerCall_alike op part site).append (lowerParts_alike ops target site _ sizes)
end

/-! ## Statements -/

mutual
theorem lowerStatement_alike : ∀ st : Statement,
    Alike bareAll (lowerStatement st) (lowerStatement st)
  | .primitive i => by
    rw [lowerStatement]
    exact lowerPrimitive_alike i
  | .call op target site => by
    rw [lowerStatement]
    exact lowerCall_alike op target site
  | .loop _ _ body _ | .ifThen _ body _ | .dagger body _ => by
    rw [lowerStatement]
    refine (lowerStatements_alike body).nested.bind fun _ _ h => .pure ?_
    simp [bareAll, bare, isDeclaration, h]
  | .ifElse _ onTrue onFalse _ => by
    rw [lowerStatement]
    refine (lowerStatements_alike onTrue).nested.bind fun _ _ h => ?_
    refine (lowerStatements_alike onFalse).nested.bind fun _ _ h' => .pure ?_
    simp [bareAll, bare, isDeclaration, h, h']
  | .within compute body _ => by
    rw [lowerStatement]
    have hparts : Alike (Prod.map bareAll bareAll)
        (do
          let compute ← lowerStatements compute
          let body ← lowerStatements body
          return (compute, body))
        (do
          let compute ← lowerStatements compute
          let body ← lowerStatements body
          return (compute, body)) :=
      (lowerStatements_alike compute).bind fun _ _ h =>
        (lowerStatements_alike body).bind fun _ _ h' => .pure (Prod.ext h h')
    refine hparts.nested.bind fun _ _ h => .pure ?_
    simp [bareAll, bare, isDeclaration, (Prod.mk.inj h).1, (Prod.mk.inj h).2]
  | .mux controls blocks _ => by
    rw [lowerStatement]
    refine (Alike.useAll controls).bind fun _ _ h => ?_
    refine (lowerBlocks_alike blocks).bind fun _ _ hblocks => ?_
    refine (alike_linearize hblocks).bind fun _ _ hcode => .pure ?_
    rw [bareAll_append, bareAll_append, h, hcode]

/-- The code of statements depends on the stack in its declarations only. -/
theorem lowerStatements_alike : ∀ sts : List Statement,
    Alike bareAll (lowerStatements sts) (lowerStatements sts)
  | [] => by
    rw [lowerStatements]
    exact .pure rfl
  | st :: sts => by
    rw [lowerStatements]
    exact (lowerStatement_alike st).append (lowerStatements_alike sts)

theorem lowerBlocks_alike : ∀ bs : List (List Statement),
    Alike (List.map bareAll) (lowerBlocks bs) (lowerBlocks bs)
  | [] => by
    rw [lowerBlocks]
    exact .pure rfl
  | b :: bs => by
    rw [lowerBlocks]
    refine (lowerStatements_alike b).bind fun _ _ h => ?_
    exact (lowerBlocks_alike bs).bind fun _ _ h' => .pure (by rw [List.map_cons, List.map_cons, h, h'])
end

/-- **What is declared decides about declarations only**: on any two stacks a lowering fails with
    the same error, or gives the same code up to declarations. -/
theorem bare_lowering (s t : Scopes) :
    (∀ (op : Operation) (target : Qubits) (site : Option Location),
        (lowerCall target site op s).1.map bareAll = (lowerCall target site op t).1.map bareAll) ∧
      ∀ sts : List Statement,
        (lowerStatements sts s).1.map bareAll = (lowerStatements sts t).1.map bareAll :=
  ⟨fun op target site => lowerCall_alike op target site s t,
    fun sts => lowerStatements_alike sts s t⟩

end Lowering

end QuantumLowering
