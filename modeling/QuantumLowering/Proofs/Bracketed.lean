/-
  Lowered code closes what it opens.

  * `Bracketed code`: the code is built from instructions without marks, adjoint regions,
    instructions with bodies, and muxes.
  * `Instruction.Holds code list`: the list is one of the tree of the code.
  * `lowerCall_bracketed`, `lowerStatements_bracketed`: without raw markers among the primitive
    instructions, all lowered code is bracketed.
  * `balanced_lowerStatements`: in every list of lowered code the adjoint regions and the controls
    are balanced, the controls also inside every region, and a listing of the code comes back to
    its depth.

  That code is bracketed does not depend on where it stands, so a part of it may run in a loop, in
  a mux or once more in the adjoint region of a compute block.
-/
import QuantumLowering.Proofs.Balance
import QuantumLowering.Proofs.Frames
import QuantumLowering.TextHash

namespace QuantumLowering

open Instruction

/-! ## Code with its brackets -/

/-- The code is built from instructions without marks, adjoint regions, instructions with
    bodies, and muxes. -/
inductive Bracketed : List Instruction → Prop
  | nil : Bracketed []
  | append {a b} : Bracketed a → Bracketed b → Bracketed (a ++ b)
  | act {a l} : a.isInert → Bracketed [.act a l]
  | region {body l m} : Bracketed body →
      Bracketed ([.act .beginDagger l] ++ body ++ [.act .endDagger m])
  | loop {x r body l} : Bracketed body → Bracketed [.loop x r body l]
  | ifThen {c body l} : Bracketed body → Bracketed [.ifThen c body l]
  | ifElse {c onTrue onFalse l} : Bracketed onTrue → Bracketed onFalse →
      Bracketed [.ifElse c onTrue onFalse l]
  | within {compute body l} : Bracketed compute → Bracketed body →
      Bracketed [.within compute body l]
  | mux {controls blocks l} : (∀ b ∈ blocks, Bracketed b) →
      Bracketed (controls.map (Mux.openControl l · false) ++ Mux.arms controls l 0 blocks ++
        controls.map (Mux.closeControl l))

/-- The lists of a tree of code: the list itself and those in the bodies. -/
inductive Instruction.Holds : List Instruction → List Instruction → Prop
  | self {code} : Holds code code
  | body {code list b i} : i ∈ code → b ∈ i.bodies → Holds b list → Holds code list

theorem Instruction.bodies_of_isControl {i : Instruction} (hi : i.isControl) : i.bodies = [] := by
  cases i with
  | act => rfl
  | _ => simp [isControl] at hi

namespace Bracketed

variable {code list inside : List Instruction} {q : Qubits}

theorem balanced_controls (h : Bracketed code) : Balanced 0 (controlMarks q code) := by
  induction h with
  | append _ _ iha ihb => rw [controlMarks_append]; exact iha.append ihb
  | @act a _ ha => cases a <;> first | exact .nil | simp [Action.isInert] at ha
  | region _ ih =>
    rw [controlMarks_append, controlMarks_append]
    exact (Balanced.nil.append ih).append .nil
  | mux _ ih => exact Mux.balanced_controls ih
  | _ => exact .nil

theorem closesRegions (h : Bracketed code) : ClosesRegions code := by
  induction h with
  | append _ _ iha ihb => exact iha.append ihb
  | @act a _ ha =>
    refine .of_regionMarks ?_
    cases a <;> first | rfl | simp [Action.isInert] at ha
  | region hbody ih => exact ih.region fun _ => hbody.balanced_controls
  | mux _ ih =>
    exact Mux.code_of .append (fun h => .of_regionMarks (regionMarks_of_isControl h)) ih
  | _ => exact .of_regionMarks rfl

/-- The bodies in such code are such code themselves. -/
theorem of_mem_bodies (h : Bracketed code) : ∀ i ∈ code, ∀ b ∈ i.bodies, Bracketed b := by
  have happend : ∀ {a c : List Instruction}, (∀ i ∈ a, ∀ b ∈ i.bodies, Bracketed b) →
      (∀ i ∈ c, ∀ b ∈ i.bodies, Bracketed b) → ∀ i ∈ a ++ c, ∀ b ∈ i.bodies, Bracketed b :=
    fun ha hc i hi => (List.mem_append.1 hi).elim (ha i) (hc i)
  have hsingle : ∀ {i : Instruction}, (∀ b ∈ i.bodies, Bracketed b) →
      ∀ j ∈ [i], ∀ b ∈ j.bodies, Bracketed b :=
    fun hi j hj => by rw [List.mem_singleton.1 hj]; exact hi
  have hplain : ∀ {i : Instruction}, i.bodies = [] → ∀ b ∈ i.bodies, Bracketed b :=
    fun hi b hb => by simp [hi] at hb
  induction h with
  | nil => exact fun _ hi => absurd hi List.not_mem_nil
  | append _ _ iha ihb => exact happend iha ihb
  | act => exact hsingle (hplain rfl)
  | region _ ih => exact happend (happend (hsingle (hplain rfl)) ih) (hsingle (hplain rfl))
  | loop hbody => exact hsingle (List.forall_mem_singleton.2 hbody)
  | ifThen hbody => exact hsingle (List.forall_mem_singleton.2 hbody)
  | ifElse ha hb => exact hsingle (List.forall_mem_cons.2 ⟨ha, List.forall_mem_singleton.2 hb⟩)
  | within ha hb => exact hsingle (List.forall_mem_cons.2 ⟨ha, List.forall_mem_singleton.2 hb⟩)
  | mux _ ih =>
    exact Mux.code_of happend (fun h i hi => hplain (bodies_of_isControl (h i hi))) ih

theorem of_holds (h : Bracketed code) (hlist : Holds code list) : Bracketed list := by
  induction hlist with
  | self => exact h
  | body hi hb _ ih => exact ih (h.of_mem_bodies _ hi _ hb)

theorem closesEvents (h : Bracketed code) :
    ClosesEvents code := by
  induction h with
  | nil => exact .of_nil (by simp)
  | append _ _ iha ihb => exact iha.append ihb
  | act ha =>
    refine .of_nil fun i hi => ?_
    obtain rfl := List.mem_singleton.1 hi
    exact Event.streamMarks_of_isInert ha
  | region _ ih =>
    refine ⟨?_, ?_⟩
    · rw [listEvents_region]; exact Event.balanced_enclose rfl rfl ih.list
    · rw [replayEvents_region]; exact Event.balanced_enclose rfl rfl ih.replay
  | loop _ ih => exact .single rfl (by rw [events]; exact Event.balanced_enclose rfl rfl ih.list)
  | ifThen _ ih => exact .single rfl (by rw [events]; exact Event.balanced_enclose rfl rfl ih.list)
  | ifElse _ _ iha ihb =>
    exact .single rfl (by rw [events]; exact Event.balanced_branches iha.list ihb.list)
  | within _ _ iha ihb =>
    refine .single rfl ?_
    rw [events_within, Event.streamMarks_append, Event.streamMarks_append]
    exact (iha.list.append ihb.list).append (Event.balanced_enclose rfl rfl iha.replay)
  | mux _ ih =>
    refine Mux.code_of .append (fun h => .of_nil fun i hi => ?_) ih
    exact Event.streamMarks_of_isControl (h i hi)

end Bracketed

/-! ## Lowering -/

namespace Bracketed

theorem declarations (qs : List Qubits) : Bracketed (QuantumLowering.declarations qs) := by
  induction qs with
  | nil => exact nil
  | cons q qs ih =>
    have hq : Bracketed [.act (.declare q) none] := act rfl
    exact hq.append ih

/-- An instruction without marks, behind the declarations it needs. -/
theorem declared_act {qs : List Qubits} {a : Action} {l : Option Location} (ha : a.isInert) :
    Bracketed (QuantumLowering.declarations qs ++ [.act a l]) :=
  append (declarations qs) (act ha)

theorem linearize {controls : List Qubits} {blocks : List (List Instruction)}
    {code : List Instruction} {l : Option Location} (h : ∀ b ∈ blocks, Bracketed b)
    (hm : Mux.linearize controls blocks l = .ok code) : Bracketed code := by
  rw [Lowering.linearize_ok hm]
  exact mux h

end Bracketed

namespace Lowering

mutual
theorem lowerCall_bracketed [Fingerprint] : ∀ {op : Operation} {target : Qubits}
    {site : Option Location} {s s' : Scopes} {code : List Instruction},
    Yields (lowerCall target site op) s code s' → Bracketed code
  | .elementary (.gate _) _, _, _, _, _, _, h => by
    rcases lowerCall_gate h with ⟨-, rfl, -⟩ | ⟨-, -, rfl⟩
    · exact .nil
    · exact .declared_act rfl
  | .elementary (.call ..) _, _, _, _, _, _, h => by
    obtain ⟨_, -, -, rfl⟩ := lowerCall_call h
    exact .declared_act rfl
  | .sequence .., _, _, _, _, _, h => lowerSequence_bracketed (lowerCall_sequence h)
  | .combination .., _, _, _, _, _, h => by
    obtain ⟨_, -, h⟩ := lowerCall_combination h
    exact lowerParts_bracketed h
  | .power .., _, _, _, _, _, h => by
    obtain ⟨_, _, _, _, -, -, hbody, -, rfl⟩ := lowerCall_power h
    exact .append (.declarations _) (.loop (lowerCall_bracketed hbody))
  | .adjoint .., _, _, _, _, _, h => by
    obtain ⟨_, _, hbody, -, rfl⟩ := lowerCall_adjoint h
    exact .append (.declarations _) (.region (lowerCall_bracketed hbody))
  | .scaled .., _, _, _, _, _, h => lowerCall_bracketed (lowerCall_scaled h)
  | .choice .., _, _, _, _, _, h => by
    obtain ⟨_, _, _, _, hFalse, hTrue, hm, rfl⟩ := lowerCall_choice h
    have hblocks := List.forall_mem_cons.2
      ⟨lowerCall_bracketed hFalse, List.forall_mem_singleton.2 (lowerCall_bracketed hTrue)⟩
    exact .append (.declarations _) (.append (.declarations _) (.linearize hblocks hm))

theorem lowerSequence_bracketed [Fingerprint] : ∀ {ops : List Operation} {target : Qubits}
    {site : Option Location} {s s' : Scopes} {code : List Instruction},
    Yields (lowerSequence target site ops) s code s' → Bracketed code
  | [], _, _, _, _, _, h => by obtain ⟨rfl, -⟩ := lowerSequence_nil h; exact .nil
  | _ :: _, _, _, _, _, _, h => by
    obtain ⟨-, _, _, _, hfirst, hrest, rfl⟩ := lowerSequence_cons h
    exact .append (lowerCall_bracketed hfirst) (lowerSequence_bracketed hrest)

theorem lowerParts_bracketed [Fingerprint] : ∀ {ops : List Operation} {target : Qubits}
    {site : Option Location} {start : Quantity} {sizes : List Quantity} {s s' : Scopes}
    {code : List Instruction},
    Yields (lowerParts target site start sizes ops) s code s' → Bracketed code
  | [], _, _, _, _, _, _, _, h => by obtain ⟨rfl, -⟩ := lowerParts_nil h; exact .nil
  | _ :: _, _, _, _, _, _, _, _, h => by
    rcases lowerParts_cons h with ⟨-, rfl, -⟩ | ⟨_, _, _, _, _, _, -, -, hfirst, hrest, rfl⟩
    · exact .nil
    · exact .append (lowerCall_bracketed hfirst) (lowerParts_bracketed hrest)
end

theorem lowerPrimitive_bracketed {i : Instruction} {s s' : Scopes} {code : List Instruction}
    (hi : i.isInert) (h : Yields (lowerPrimitive i) s code s') : Bracketed code := by
  obtain ⟨-, rfl⟩ := lowerPrimitive_eq h
  refine .append (.declarations _) ?_
  split
  · exact .nil
  · rcases i with ⟨a, l⟩ | _ | _ | _ | _
    · exact .act hi
    all_goals simp [Instruction.isInert] at hi

mutual
theorem lowerStatement_bracketed [Fingerprint] : ∀ {st : Statement} {s s' : Scopes}
    {code : List Instruction},
    st.everyPrimitive Instruction.isInert → Yields (lowerStatement st) s code s' → Bracketed code
  | .primitive _, _, _, _, hi, h =>
    lowerPrimitive_bracketed (by simpa [Statement.everyPrimitive] using hi)
      (by rwa [lowerStatement] at h)
  | .call .., _, _, _, _, h => lowerCall_bracketed (by rwa [lowerStatement] at h)
  | .loop .., _, _, _, hi, h => by
    obtain ⟨_, _, hbody, -, rfl⟩ := lowerStatement_loop h
    exact .loop (lowerStatements_bracketed (by simpa [Statement.everyPrimitive] using hi) hbody)
  | .ifThen .., _, _, _, hi, h => by
    obtain ⟨_, _, hbody, -, rfl⟩ := lowerStatement_ifThen h
    exact .ifThen (lowerStatements_bracketed (by simpa [Statement.everyPrimitive] using hi) hbody)
  | .ifElse .., _, _, _, hi, h => by
    obtain ⟨_, _, _, _, hTrue, hFalse, -, rfl⟩ := lowerStatement_ifElse h
    simp only [Statement.everyPrimitive, Bool.and_eq_true] at hi
    exact .ifElse (lowerStatements_bracketed hi.1 hTrue) (lowerStatements_bracketed hi.2 hFalse)
  | .dagger .., _, _, _, hi, h => by
    obtain ⟨_, _, hbody, -, rfl⟩ := lowerStatement_dagger h
    exact .region (lowerStatements_bracketed (by simpa [Statement.everyPrimitive] using hi) hbody)
  | .within .., _, _, _, hi, h => by
    obtain ⟨_, _, _, _, hcompute, hbody, -, rfl⟩ := lowerStatement_within h
    simp only [Statement.everyPrimitive, Bool.and_eq_true] at hi
    exact .within (lowerStatements_bracketed hi.1 hcompute) (lowerStatements_bracketed hi.2 hbody)
  | .mux .., _, _, _, hi, h => by
    obtain ⟨_, _, hblocks, hm, rfl⟩ := lowerStatement_mux h
    have hblocks := lowerBlocks_bracketed (by simpa [Statement.everyPrimitive] using hi) hblocks
    exact .append (.declarations _) (.linearize hblocks hm)

theorem lowerStatements_bracketed [Fingerprint] : ∀ {sts : List Statement} {s s' : Scopes}
    {code : List Instruction}, Statement.everyPrimitives Instruction.isInert sts →
    Yields (lowerStatements sts) s code s' → Bracketed code
  | [], _, _, _, _, h => by obtain ⟨rfl, -⟩ := lowerStatements_nil h; exact .nil
  | _ :: _, _, _, _, hi, h => by
    obtain ⟨_, _, _, hfirst, hrest, rfl⟩ := lowerStatements_cons h
    simp only [Statement.everyPrimitives, Bool.and_eq_true] at hi
    exact .append (lowerStatement_bracketed hi.1 hfirst) (lowerStatements_bracketed hi.2 hrest)

theorem lowerBlocks_bracketed [Fingerprint] : ∀ {bs : List (List Statement)} {s s' : Scopes}
    {blocks : List (List Instruction)}, Statement.everyBlock Instruction.isInert bs →
    Yields (lowerBlocks bs) s blocks s' → ∀ b ∈ blocks, Bracketed b
  | [], _, _, _, _, h => by obtain ⟨rfl, -⟩ := lowerBlocks_nil h; simp
  | _ :: _, _, _, _, hi, h => by
    obtain ⟨_, _, _, hfirst, hrest, rfl⟩ := lowerBlocks_cons h
    simp only [Statement.everyBlock, Bool.and_eq_true] at hi
    exact List.forall_mem_cons.2
      ⟨lowerStatements_bracketed hi.1 hfirst, lowerBlocks_bracketed hi.2 hrest⟩
end

/-- **Lowered code closes what it opens.**  In every list of its tree the adjoint regions are
    balanced, and every control is, over the list and inside each of its regions.  A listing of
    the code ends at the depth it starts from, and closes nothing at that depth. -/
theorem balanced_lowerStatements [Fingerprint] {statements : List Statement} {s : Scopes}
    {code : List Instruction} (hi : Statement.everyPrimitives Instruction.isInert statements)
    (h : (lowerStatements statements s).1 = .ok code) :
    (∀ list, Holds code list → ClosesRegions list ∧ ∀ q, Balanced 0 (controlMarks q list)) ∧
      ∀ l : Listing, (l.run (listEvents code)).depth = l.depth ∧
        ∀ pre e post, listEvents code = pre ++ e :: post → .closes ∈ e.marks →
          l.depth < (l.run pre).depth := by
  have hcode : Bracketed code := lowerStatements_bracketed hi ⟨h, rfl⟩
  constructor
  · intro list hlist
    have hbracketed := hcode.of_holds hlist
    exact ⟨hbracketed.closesRegions, fun _ => hbracketed.balanced_controls⟩
  · intro l
    exact Listing.depth_of_balanced hcode.closesEvents.list l

/-- A compute part with a mux in an adjoint region. -/
def computedMux : List Statement :=
  [.within [.dagger [.mux [.register ⟨"c", .const 1, .owner⟩]
      [[], [.call (.ofGate .x) (.register ⟨"q", .const 1, .owner⟩) none]] none] none] [] none]

/-- Its code, with all of the markers in the compute part. -/
def computedMuxCode : List Instruction :=
  [.within [.act .beginDagger none,
    .act (.beginControl (.register ⟨"c", .const 1, .owner⟩) false) none,
    .act (.endControl (.register ⟨"c", .const 1, .owner⟩)) none,
    .act (.beginControl (.register ⟨"c", .const 1, .owner⟩) true) none,
    .act (.apply (.gate .x) (.register ⟨"q", .const 1, .owner⟩)) none,
    .act (.endControl (.register ⟨"c", .const 1, .owner⟩)) none,
    .act .endDagger none] [] none]

theorem balanced_lowerStatements_computedMux :
    Statement.everyPrimitives Instruction.isInert computedMux ∧
    (lowerStatements computedMux Scopes.initial).1 = .ok computedMuxCode ∧
    (∀ list, Holds computedMuxCode list →
      ClosesRegions list ∧ ∀ q, Balanced 0 (controlMarks q list)) ∧
    ∀ l : Listing, (l.run (listEvents computedMuxCode)).depth = l.depth ∧
      ∀ pre e post, listEvents computedMuxCode = pre ++ e :: post → .closes ∈ e.marks →
        l.depth < (l.run pre).depth :=
  ⟨rfl, rfl, @balanced_lowerStatements _ computedMux Scopes.initial computedMuxCode rfl rfl⟩

end Lowering

end QuantumLowering
