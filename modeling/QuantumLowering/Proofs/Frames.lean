/-
  What lowering does to the stack of frames, whether it succeeds or fails.

  * `Instruction.frameDeclarations`: what a list declares itself, outside its adjoint regions.
  * `Instruction.Fills made code`: the code closes the regions it opens and declares `made`
    outside them, wherever it stands.
  * `Lowering.Declaring x P`: with every outcome `x` only adds declarations to the innermost
    frame, and a value it returns is related by `P` to what was added.  One rule for each way
    to build a computation.
  * `lowerCall_declaring`, `lowerStatements_declaring`: all lowering does so, and the code it
    returns fills the frame with exactly what was added.
  * `keepsFrames_lowering`: the frames around the innermost one stay as they are, and the
    innermost one only grows.
-/
import QuantumLowering.Proofs.Inversion
import QuantumLowering.Proofs.Multiplexing
import QuantumLowering.Proofs.Visibility
import QuantumLowering.TextHash

namespace QuantumLowering

namespace Scopes

variable {s s' : Scopes} {qs : List Qubits}

theorem innermost_declareAll : (s.declareAll qs).innermost = qs.reverse ++ s.innermost := by
  induction qs generalizing s with
  | nil => rfl
  | cons q qs ih => rw [declareAll_cons, ih, List.reverse_cons, List.append_assoc]; rfl

/-- Frames around the innermost one stay as they are. -/
theorem Declares.outer_eq (h : Declares s qs s') : s'.outer = s.outer := by
  rw [h.eq_declareAll, outer_declareAll]

theorem Declares.depth_eq (h : Declares s qs s') : s'.depth = s.depth := by
  rw [depth, h.outer_eq, depth]

theorem Declares.innermost_eq (h : Declares s qs s') :
    s'.innermost = qs.reverse ++ s.innermost := by
  rw [h.eq_declareAll, innermost_declareAll]

/-- Leaving a frame opened for declarations gives the stack from before. -/
theorem Declares.leave_eq (h : Declares s.enter qs s') : s'.leave = s := by
  simp [leave, h.outer_eq, enter]

end Scopes

/-! ## The declarations of a frame -/

namespace Instruction

/-- The qubits that a list declares itself outside its adjoint regions, of which `depth` are
    open. -/
def frameDeclarations : Nat → List Instruction → List Qubits
  | _, [] => []
  | depth, .act .beginDagger _ :: is => frameDeclarations (depth + 1) is
  | depth, .act .endDagger _ :: is => frameDeclarations (depth - 1) is
  | depth, .act (.declare q) _ :: is =>
    (if depth = 0 then [q] else []) ++ frameDeclarations depth is
  | depth, _ :: is => frameDeclarations depth is

/-- Whether an instruction opens or closes an adjoint region. -/
def isRegionMarker : Instruction → Bool
  | act .beginDagger _ | act .endDagger _ => true
  | _ => false

/-- The code closes the adjoint regions it opens, and declares `made` outside them. -/
def Fills (made : List Qubits) (code : List Instruction) : Prop :=
  ∀ depth rest, frameDeclarations depth (code ++ rest) =
    (if depth = 0 then made else []) ++ frameDeclarations depth rest

namespace Fills

variable {made rest : List Qubits} {code b : List Instruction} {i : Instruction}

theorem eq (h : Fills made code) : frameDeclarations 0 code = made := by
  simpa [frameDeclarations] using h 0 []

theorem nil : Fills [] [] := fun _ _ => by simp

theorem append (h : Fills made code) (h' : Fills rest b) : Fills (made ++ rest) (code ++ b) := by
  intro depth is
  rw [List.append_assoc, h, h']
  split <;> simp

theorem single (hd : i.isDeclaration = false) (hm : i.isRegionMarker = false) : Fills [] [i] := by
  intro depth is
  rcases i with ⟨a, l⟩ | _ | _ | _ | _
  · cases a <;> simp_all [frameDeclarations, isDeclaration, isRegionMarker]
  all_goals simp [frameDeclarations]

theorem declarations (qs : List Qubits) : Fills qs (QuantumLowering.declarations qs) := by
  induction qs with
  | nil => exact nil
  | cons q qs ih =>
    have hq : Fills [q] [.act (.declare q) none] := fun _ _ => rfl
    exact hq.append ih

/-- What a region declares is not declared outside it. -/
theorem region (h : Fills made code) (l m : Option Location) :
    Fills [] ([.act .beginDagger l] ++ code ++ [.act .endDagger m]) := by
  intro depth is
  simp [frameDeclarations, h (depth + 1)]

theorem of_isControl {code : List Instruction} (h : ∀ i ∈ code, i.isControl) : Fills [] code := by
  induction code with
  | nil => exact nil
  | cons i is ih =>
    have hi : i.isControl := h i List.mem_cons_self
    have hsingle : Fills [] [i] := by
      refine single ?_ ?_ <;> rcases i with ⟨a, l⟩ | _ | _ | _ | _ <;>
        first | rfl | (cases a <;> first | rfl | simp [isControl] at hi)
    exact hsingle.append (ih fun j hj => h j (List.mem_cons_of_mem _ hj))

/-- Blocks one after another in the same frame. -/
inductive Each : List Qubits → List (List Instruction) → Prop
  | nil : Each [] []
  | cons {made rest b bs} : Fills made b → Each rest bs → Each (made ++ rest) (b :: bs)

variable {controls : List Qubits} {blocks : List (List Instruction)} {l : Option Location}

theorem arms (h : Each made blocks) : ∀ state, Fills made (Mux.arms controls l state blocks) := by
  induction h with
  | nil => exact fun _ => nil
  | cons hb _ ih =>
    intro state
    have htoggles : Fills [] (Mux.toggles controls l state) :=
      of_isControl fun _ hi => Mux.isControl_of_mem_toggles hi
    exact (htoggles.append hb).append (ih (state + 1))

theorem linearize (h : Each made blocks) (hm : Mux.linearize controls blocks l = .ok code) :
    Fills made code := by
  have hopen : Fills [] (controls.map (Mux.openControl l · false)) :=
    of_isControl fun _ hi => Mux.isControl_of_mem_open hi
  have hclose : Fills [] (controls.map (Mux.closeControl l)) :=
    of_isControl fun _ hi => Mux.isControl_of_mem_close hi
  rw [Lowering.linearize_ok hm]
  simpa using (hopen.append (arms h 0)).append hclose

end Fills

end Instruction

open Instruction

/-! ## Computations -/

namespace Lowering

variable {α β : Type} {s s' : Scopes}

/-- With every outcome the computation only adds declarations to the innermost frame, and a
    value it returns is related to what was added. -/
def Declaring (x : Lowering α) (P : List Qubits → α → Prop) : Prop :=
  ∀ s, ∃ made, Scopes.Declares s made (x s).2 ∧ ∀ a, (x s).1 = .ok a → P made a

namespace Declaring

variable {P : List Qubits → α → Prop} {Q : List Qubits → β → Prop}

theorem pure {a : α} (h : P [] a) : Declaring (pure a) P := by
  intro s
  refine ⟨[], .nil, fun b hb => ?_⟩
  obtain rfl : a = b := Except.ok.inj hb
  exact h

theorem mono {x : Lowering α} {P' : List Qubits → α → Prop} (hx : Declaring x P)
    (h : ∀ made a, P made a → P' made a) : Declaring x P' := by
  intro s
  obtain ⟨made, hmade, hP⟩ := hx s
  exact ⟨made, hmade, fun a ha => h made a (hP a ha)⟩

theorem bind {x : Lowering α} {f : α → Lowering β} (hx : Declaring x P)
    (hf : ∀ made a, P made a → Declaring (f a) fun rest => Q (made ++ rest)) :
    Declaring (x >>= f) Q := by
  intro s
  obtain ⟨made, hmade, hP⟩ := hx s
  rcases hxs : x s with ⟨e | a, t⟩
  · rw [bind_of_error hxs]
    rw [hxs] at hmade
    exact ⟨made, hmade, fun b hb => by simp at hb⟩
  · rw [bind_of_ok hxs]
    rw [hxs] at hmade hP
    obtain ⟨rest, hrest, hQ⟩ := hf made a (hP a rfl) t
    exact ⟨made ++ rest, hmade.append hrest, hQ⟩

/-- Two computations one after another, whatever they return. -/
theorem pair {x : Lowering α} {y : Lowering β} (hx : Declaring x P) (hy : Declaring y Q) :
    Declaring (do
      let a ← x
      let b ← y
      return (a, b)) fun _ _ => True :=
  hx.bind fun _ _ _ => hy.bind fun _ _ _ => .pure trivial

theorem lift {x : Except LoweringError α} {f : α → Lowering β}
    (hf : ∀ a, x = .ok a → Declaring (f a) Q) : Declaring (liftExcept x >>= f) Q := by
  have hx : Declaring (liftExcept x) fun made a => made = [] ∧ x = .ok a := by
    intro s
    have hlift : (liftExcept x : Lowering α) s = (x, s) := by cases x <;> rfl
    rw [hlift]
    exact ⟨[], .nil, fun a ha => ⟨rfl, ha⟩⟩
  exact hx.bind fun made a ⟨hmade, ha⟩ => hmade ▸ hf a ha

theorem check {x : Except FormationError α} {f : α → Lowering β}
    (hf : ∀ a, x = .ok a → Declaring (f a) Q) : Declaring (ofFormation x >>= f) Q := by
  have hx : Declaring (ofFormation x) fun made a => made = [] ∧ x = .ok a :=
    fun s => ⟨[], .nil, fun a ha => ⟨rfl, (yields_ofFormation.1 ⟨ha, rfl⟩).1⟩⟩
  exact hx.bind fun made a ⟨hmade, ha⟩ => hmade ▸ hf a ha

theorem use (q : Qubits) : Declaring (use q) Fills := by
  intro s
  refine ⟨_, (s.readies_use q).declares, fun code hcode => ?_⟩
  rw [← Except.ok.inj hcode]
  exact .declarations _

theorem useAll (qs : List Qubits) : Declaring (useAll qs) Fills := by
  intro s
  refine ⟨_, (s.readies_useAll qs).declares, fun code hcode => ?_⟩
  rw [← Except.ok.inj hcode]
  exact .declarations _

/-- Nothing of what is declared in a frame of its own is left. -/
theorem snd_nested {x : Lowering α} (hx : Declaring x P) (s : Scopes) :
    (Lowering.nested x s).2 = s := by
  obtain ⟨_, hinner, -⟩ := hx s.enter
  exact hinner.leave_eq

theorem nested {x : Lowering α} {f : α → Lowering β} (hx : Declaring x P)
    (hf : ∀ inner a, P inner a → Declaring (f a) Q) : Declaring (nested x >>= f) Q := by
  have hn : Declaring (Lowering.nested x) fun made a => made = [] ∧ ∃ inner, P inner a := by
    intro s
    obtain ⟨inner, -, hP⟩ := hx s.enter
    exact ⟨[], (hx.snd_nested s).symm ▸ .nil, fun a ha => ⟨rfl, inner, hP a ha⟩⟩
  exact hn.bind fun made a ⟨hmade, inner, ha⟩ => hmade ▸ hf inner a ha

end Declaring

/-! ## Operations -/

mutual
theorem lowerCall_declaring [Fingerprint] : ∀ (op : Operation) (target : Qubits)
    (site : Option Location), Declaring (lowerCall target site op) Fills
  | .elementary (.gate g) own, target, site => by
    rw [lowerCall]
    split
    · exact .pure .nil
    · exact (Declaring.use target).bind fun made before h => .pure (h.append (.single rfl rfl))
  | .elementary (.call d args) own, target, site => by
    rw [lowerCall]
    refine Declaring.lift fun args _ => ?_
    exact (Declaring.use target).bind fun made before h => .pure (h.append (.single rfl rfl))
  | .sequence elements own, target, site => by
    rw [lowerCall]
    exact lowerSequence_declaring elements target _
  | .combination elements own, target, site => by
    rw [lowerCall]
    exact Declaring.lift fun sizes _ => lowerParts_declaring elements target _ _ sizes
  | .power base copies own, target, site => by
    rw [lowerCall_power_eq]
    refine Declaring.lift fun partSize _ => (Declaring.use target).bind fun made before h => ?_
    have hbody := Declaring.check (x := copyPart target partSize
      (powerIndex (.power base copies own)).quantity) fun part _ =>
        lowerCall_declaring base part (site.or own)
    exact hbody.nested fun _ body _ => .pure (h.append (.single rfl rfl))
  | .adjoint base own, target, site => by
    rw [lowerCall]
    refine (Declaring.use target).bind fun made before h => ?_
    refine (lowerCall_declaring base target _).nested fun _ body hbody => .pure ?_
    simpa using h.append (hbody.region _ _)
  | .scaled _ base own, target, site => by
    rw [lowerCall]
    exact lowerCall_declaring base target _
  | .choice control onTrue onFalse own, target, site => by
    rw [lowerCall]
    refine (Declaring.use control).bind fun _ before h => ?_
    refine (Declaring.use target).bind fun _ before' h' => ?_
    refine (lowerCall_declaring onFalse target _).bind fun _ whereFalse hFalse => ?_
    refine (lowerCall_declaring onTrue target _).bind fun _ whereTrue hTrue => ?_
    refine Declaring.check fun code hcode => .pure ?_
    simpa using (h.append h').append (Fills.linearize (.cons hFalse (.cons hTrue .nil)) hcode)

theorem lowerSequence_declaring [Fingerprint] : ∀ (ops : List Operation) (target : Qubits)
    (site : Option Location), Declaring (lowerSequence target site ops) Fills
  | [], _, _ => by
    rw [lowerSequence]
    exact .pure .nil
  | op :: ops, target, site => by
    rw [lowerSequence]
    refine Declaring.check fun _ _ => ?_
    refine (lowerCall_declaring op target site).bind fun _ first hfirst => ?_
    refine (lowerSequence_declaring ops target site).bind fun _ rest hrest => .pure ?_
    simpa using hfirst.append hrest

theorem lowerParts_declaring [Fingerprint] : ∀ (ops : List Operation) (target : Qubits)
    (site : Option Location) (start : Quantity) (sizes : List Quantity),
    Declaring (lowerParts target site start sizes ops) Fills
  | [], _, _, _, _ => by
    rw [lowerParts]
    exact .pure .nil
  | _ :: _, _, _, _, [] => by
    rw [lowerParts]
    exact .pure .nil
  | op :: ops, target, site, start, size :: sizes => by
    rw [lowerParts]
    refine Declaring.check fun part _ => ?_
    refine (lowerCall_declaring op part site).bind fun _ first hfirst => ?_
    refine (lowerParts_declaring ops target site _ sizes).bind fun _ rest hrest => .pure ?_
    simpa using hfirst.append hrest
end

end Lowering

/-! ## Statements -/

namespace Statement

mutual
/-- Whether the primitive instructions of a statement, in its bodies or outside, all meet a
    condition. -/
def everyPrimitive (p : Instruction → Bool) : Statement → Bool
  | .primitive i => p i
  | .call .. => true
  | .loop _ _ body _ | .ifThen _ body _ | .dagger body _ => everyPrimitives p body
  | .ifElse _ onTrue onFalse _ => everyPrimitives p onTrue && everyPrimitives p onFalse
  | .within compute body _ => everyPrimitives p compute && everyPrimitives p body
  | .mux _ blocks _ => everyBlock p blocks

/-- `everyPrimitive` of every statement. -/
def everyPrimitives (p : Instruction → Bool) : List Statement → Bool
  | [] => true
  | s :: ss => s.everyPrimitive p && everyPrimitives p ss

/-- `everyPrimitive` of every statement of every block. -/
def everyBlock (p : Instruction → Bool) : List (List Statement) → Bool
  | [] => true
  | b :: bs => everyPrimitives p b && everyBlock p bs
end

/-- Whether no primitive instruction opens or closes an adjoint region. -/
def allUnmarked (sts : List Statement) : Bool := everyPrimitives (!·.isRegionMarker) sts

end Statement

namespace Lowering

theorem lowerPrimitive_declaring (i : Instruction) :
    Declaring (lowerPrimitive i) fun made code => i.isRegionMarker = false → Fills made code := by
  refine (Declaring.useAll i.qubits).bind fun made before h => .pure fun hi => ?_
  by_cases hd : i.isDeclaration
  · simpa [hd] using h
  · simpa [hd] using h.append (.single (Bool.not_eq_true _ ▸ hd) hi)

mutual
/-- A statement only adds declarations to the innermost frame; without region markers among
    its primitive instructions, they are those that its code makes there. -/
theorem lowerStatement_declaring [Fingerprint] : ∀ st : Statement, Declaring (lowerStatement st)
    fun made code => st.everyPrimitive (!·.isRegionMarker) → Fills made code
  | .primitive i => by
    rw [lowerStatement]
    simpa [Statement.everyPrimitive] using lowerPrimitive_declaring i
  | .call op target site => by
    rw [lowerStatement]
    exact (lowerCall_declaring op target site).mono fun _ _ h _ => h
  | .loop .. => by
    rw [lowerStatement]
    exact (lowerStatements_declaring _).nested fun _ body _ => .pure fun _ => .single rfl rfl
  | .ifThen .. => by
    rw [lowerStatement]
    exact (lowerStatements_declaring _).nested fun _ body _ => .pure fun _ => .single rfl rfl
  | .ifElse .. => by
    rw [lowerStatement]
    refine (lowerStatements_declaring _).nested fun _ onTrue _ => ?_
    exact (lowerStatements_declaring _).nested fun _ onFalse _ => .pure fun _ => .single rfl rfl
  | .dagger body site => by
    rw [lowerStatement]
    refine (lowerStatements_declaring body).nested fun _ code h => .pure fun hu => ?_
    exact (h (by simpa [Statement.everyPrimitive] using hu)).region site site
  | .within compute body site => by
    rw [lowerStatement]
    have hparts := (lowerStatements_declaring compute).pair (lowerStatements_declaring body)
    exact hparts.nested fun _ parts _ => .pure fun _ => .single rfl rfl
  | .mux controls blocks site => by
    rw [lowerStatement]
    refine (Declaring.useAll controls).bind fun _ before h => ?_
    refine (lowerBlocks_declaring blocks).bind fun _ blocks' hblocks => ?_
    refine Declaring.check fun code hcode => .pure fun hu => ?_
    have heach := hblocks (by simpa [Statement.everyPrimitive] using hu)
    simpa using h.append (Fills.linearize heach hcode)

theorem lowerStatements_declaring [Fingerprint] : ∀ sts : List Statement,
    Declaring (lowerStatements sts) fun made code =>
      Statement.everyPrimitives (!·.isRegionMarker) sts → Fills made code
  | [] => by
    rw [lowerStatements]
    exact .pure fun _ => .nil
  | st :: sts => by
    rw [lowerStatements]
    refine (lowerStatement_declaring st).bind fun _ first hfirst => ?_
    refine (lowerStatements_declaring sts).bind fun _ rest hrest => .pure fun hu => ?_
    simp only [Statement.everyPrimitives, Bool.and_eq_true] at hu
    simpa using (hfirst hu.1).append (hrest hu.2)

theorem lowerBlocks_declaring [Fingerprint] : ∀ bs : List (List Statement),
    Declaring (lowerBlocks bs) fun made blocks =>
      Statement.everyBlock (!·.isRegionMarker) bs → Fills.Each made blocks
  | [] => by
    rw [lowerBlocks]
    exact .pure fun _ => .nil
  | b :: bs => by
    rw [lowerBlocks]
    refine (lowerStatements_declaring b).bind fun _ first hfirst => ?_
    refine (lowerBlocks_declaring bs).bind fun _ rest hrest => .pure fun hu => ?_
    simp only [Statement.everyBlock, Bool.and_eq_true] at hu
    simpa using Fills.Each.cons (hfirst hu.1) (hrest hu.2)
end

/-! ## The stack afterwards -/

/-- What a lowering leaves of the stack it started with. -/
structure KeepsFrames (s : Scopes) (r : Except LoweringError (List Instruction) × Scopes) :
    Prop where
  depth : r.2.depth = s.depth
  /-- The frames around the innermost one are as before. -/
  outer : r.2.outer = s.outer
  /-- The innermost frame gets new declarations, and if there is code, those that it makes in
      its frame. -/
  grows : ∃ added, r.2.innermost = added ++ s.innermost ∧ (∀ q ∈ added, ¬ s.isDeclared q) ∧
    ∀ code, r.1 = .ok code → added = (frameDeclarations 0 code).reverse

theorem Declaring.keepsFrames {x : Lowering (List Instruction)} (hx : Declaring x Fills)
    (s : Scopes) : KeepsFrames s (x s) := by
  obtain ⟨made, hmade, hfills⟩ := hx s
  refine ⟨hmade.depth_eq, hmade.outer_eq, made.reverse, hmade.innermost_eq, ?_, ?_⟩
  · intro q hq
    exact hmade.not_isDeclared (List.mem_reverse.1 hq)
  · intro code hcode
    rw [(hfills code hcode).eq]

/-- **Lowering touches only the innermost frame, which gets what the code declares there.** -/
theorem keepsFrames_lowering [Fingerprint] (s : Scopes) :
    (∀ (op : Operation) (target : Qubits) (site : Option Location),
        KeepsFrames s (lowerCall target site op s)) ∧
      ∀ sts : List Statement, Statement.allUnmarked sts → KeepsFrames s (lowerStatements sts s) := by
  constructor
  · intro op target site
    exact (lowerCall_declaring op target site).keepsFrames s
  · intro sts hu
    exact ((lowerStatements_declaring sts).mono fun _ _ h => h hu).keepsFrames s

/-- An adjoint region and an element outside it, lowered in the inner one of two frames. -/
theorem keepsFrames_lowering_region :
    Statement.allUnmarked [.dagger [.call (.ofGate .x)
        (.single (.register ⟨"q", .const 2, .owner⟩) (.const 0)) none] none,
      .call (.ofGate .x) (.single (.register ⟨"q", .const 2, .owner⟩) (.const 1)) none] ∧
    KeepsFrames ⟨[], [[.single (.register ⟨"p", .const 2, .owner⟩) (.const 0)]]⟩
      (lowerStatements [.dagger [.call (.ofGate .x)
          (.single (.register ⟨"q", .const 2, .owner⟩) (.const 0)) none] none,
        .call (.ofGate .x) (.single (.register ⟨"q", .const 2, .owner⟩) (.const 1)) none]
        ⟨[], [[.single (.register ⟨"p", .const 2, .owner⟩) (.const 0)]]⟩) :=
  ⟨rfl, (keepsFrames_lowering _).2 _ rfl⟩

end Lowering

end QuantumLowering
