/-
  Lowered code does not apply operations to targets of surely different size.

  * `Instruction.listCalls`: the elementary calls of a list with their targets, at any depth.
  * `Elementary.callSize`: the size of an elementary call, the solved unknown put in.
  * `Operation.Fits`: a determined size that does not surely differ from that of the target.
    This is what lowering keeps from an operation to its parts.
  * `callSize_lowerStatement`: no call in lowered code surely differs from its target.
-/
import QuantumLowering.Proofs.Construction
import QuantumLowering.Proofs.Inversion
import QuantumLowering.Proofs.Multiplexing
import QuantumLowering.Proofs.Slices
import QuantumLowering.Proofs.Solving
import QuantumLowering.TextHash

namespace QuantumLowering

/-- The size of an elementary call in lowered code.  A hidden unknown has been solved, and its
    value is the first argument. -/
def Elementary.callSize : Elementary → Quantity
  | gate g => .const (Int64.ofNat g.qubits)
  | call d args =>
    match d.hidden, args with
    | some x, .int value :: _ => d.size.subst x value
    | _, _ => d.size

namespace Instruction

mutual
/-- The elementary calls of an instruction and their targets, those in bodies included. -/
def calls : Instruction → List (Elementary × Qubits)
  | .act (.apply e target) _ => [(e, target)]
  | .act _ _ => []
  | .loop _ _ body _ | .ifThen _ body _ => listCalls body
  | .ifElse _ a b _ | .within a b _ => listCalls a ++ listCalls b

/-- The elementary calls of a list of instructions. -/
def listCalls : List Instruction → List (Elementary × Qubits)
  | [] => []
  | i :: is => i.calls ++ listCalls is
end

@[simp] theorem listCalls_append {a b : List Instruction} :
    listCalls (a ++ b) = listCalls a ++ listCalls b := by
  induction a with
  | nil => rfl
  | cons i is ih => simp [listCalls, ih]

@[simp] theorem listCalls_declarations {qs : List Qubits} : listCalls (declarations qs) = [] := by
  induction qs with
  | nil => rfl
  | cons q qs ih => simpa [declarations, listCalls, calls] using ih

end Instruction

open Instruction

/-! ## Controls make no calls -/

namespace Mux

variable {l : Option Location} {c : Elementary × Qubits}

theorem listCalls_of_isControl {code : List Instruction} (h : ∀ i ∈ code, i.isControl) :
    listCalls code = [] := by
  induction code with
  | nil => rfl
  | cons i is ih =>
    have hi : i.isControl := h i List.mem_cons_self
    have hcalls : i.calls = [] := by
      rcases i with ⟨a, l⟩ | _ | _ | _ | _
      · cases a <;> first | rfl | simp [isControl] at hi
      all_goals simp [isControl] at hi
    rw [listCalls, hcalls, ih fun j hj => h j (List.mem_cons_of_mem _ hj), List.append_nil]

theorem listCalls_arms {controls : List Qubits} :
    ∀ {state : Nat} {blocks : List (List Instruction)},
      c ∈ listCalls (arms controls l state blocks) → ∃ b ∈ blocks, c ∈ listCalls b
  | _, [], h => by simp [arms, listCalls] at h
  | state, b :: bs, h => by
    have htoggles : listCalls (toggles controls l state) = [] :=
      listCalls_of_isControl fun _ hi => isControl_of_mem_toggles hi
    simp only [arms, listCalls_append, htoggles, List.nil_append, List.mem_append] at h
    rcases h with h | h
    · exact ⟨b, by simp, h⟩
    · obtain ⟨b', hb', h⟩ := listCalls_arms h
      exact ⟨b', by simp [hb'], h⟩

/-- All calls under controls come from the blocks. -/
theorem mem_listCalls_linearize {controls : List Qubits} {blocks : List (List Instruction)}
    {code : List Instruction} (hm : linearize controls blocks l = .ok code)
    (h : c ∈ listCalls code) : ∃ b ∈ blocks, c ∈ listCalls b := by
  have hopen : listCalls (controls.map (openControl l · false)) = [] :=
    listCalls_of_isControl fun _ hi => isControl_of_mem_open hi
  have hclose : listCalls (controls.map (closeControl l)) = [] :=
    listCalls_of_isControl fun _ hi => isControl_of_mem_close hi
  rw [Lowering.linearize_ok hm, listCalls_append, listCalls_append, hopen, hclose,
    List.nil_append, List.append_nil] at h
  exact listCalls_arms h

end Mux

/-! ## Operations and their targets -/

/-- If the size of the operation is determined, it does not surely differ from the target's. -/
def Operation.Fits (op : Operation) (target : Qubits) : Prop :=
  op.isDetermined → op.size.surelyDiffers target.size = false

/-- The call does not surely differ in size from its target. -/
def Elementary.Fits (c : Elementary × Qubits) : Prop :=
  c.1.callSize.surelyDiffers c.2.size = false

theorem Operation.fits_of_eval_eq {op : Operation} {target : Qubits}
    (h : op.isDetermined → ∀ ρ, op.size.eval ρ = target.size.eval ρ) : op.Fits target :=
  fun hd => Quantity.not_surelyDiffers_of_eval_eq (h hd fun _ => 0)

namespace Lowering

variable {target : Qubits} {location : Option Location}

/-- An elementary call fits its target, whether its size was declared or solved for. -/
theorem call_fits {d : Definition} {args resolved : List ClassicalValue} {own : Option Location}
    (hfits : (Operation.elementary (.call d args) own).Fits target)
    (h : resolveArgs d args target location = .ok resolved) :
    Elementary.Fits (.call d resolved, target) := by
  unfold resolveArgs at h
  split at h
  · rename_i hx
    have : Elementary.callSize (.call d resolved) = d.size := by simp [Elementary.callSize, hx]
    rw [Elementary.Fits, this]
    exact hfits (by simp [Operation.isDetermined, Operation.callIsDetermined, hx])
  · rename_i x hx
    split at h
    · rename_i value hv
      obtain rfl := Except.ok.inj h
      have : Elementary.callSize (.call d (.int value :: args)) = d.size.subst x value := by
        simp [Elementary.callSize, hx]
      rw [Elementary.Fits, this]
      exact Quantity.not_surelyDiffers_of_solve? hv
    · simp at h

mutual
/-- The calls that an operation is lowered to fit their targets if the operation does. -/
theorem lowerCall_fits [Fingerprint] : ∀ {op : Operation} {target : Qubits} {site : Option Location}
    {s s' : Scopes} {code : List Instruction}, op.branchesAgree → op.Fits target →
    Yields (lowerCall target site op) s code s' → ∀ c ∈ listCalls code, Elementary.Fits c
  | .elementary (.gate g) own, target, _, _, _, _, _, hf, h => by
    rcases lowerCall_gate h with ⟨-, rfl, -⟩ | ⟨-, -, rfl⟩
    · simp [listCalls]
    · have : Elementary.Fits (.gate g, target) := hf rfl
      simpa [listCalls, calls] using this
  | .elementary (.call d _) own, target, _, _, _, _, _, hf, h => by
    obtain ⟨resolved, hargs, -, rfl⟩ := lowerCall_call h
    simpa [listCalls, calls] using call_fits hf hargs
  | .sequence .., _, _, _, _, _, ha, _, h => lowerSequence_fits ha (lowerCall_sequence h)
  | .combination .., _, _, _, _, _, ha, _, h => by
    obtain ⟨_, hsizes, h⟩ := lowerCall_combination h
    exact lowerParts_fits ha (splitSizes_eq_ok hsizes).1 h
  | .power base copies own, _, _, _, _, _, ha, _, h => by
    obtain ⟨partSize, part, body, _, hsize, hpart, hbody, -, rfl⟩ := lowerCall_power h
    have hf : base.Fits part := Operation.fits_of_eval_eq fun hd ρ => by
      simp only [copySize, hd, if_true, Except.ok.injEq] at hsize
      rw [eval_size_copyPart hpart, hsize]
    have ha : base.branchesAgree := ha
    simpa [listCalls, calls] using lowerCall_fits ha hf hbody
  | .adjoint base _, _, _, _, _, _, ha, hf, h => by
    obtain ⟨_, _, hbody, -, rfl⟩ := lowerCall_adjoint h
    have ha : base.branchesAgree := ha
    simpa [listCalls, calls] using lowerCall_fits ha hf hbody
  | .scaled _ base _, _, _, _, _, _, ha, hf, h => by
    have ha : base.branchesAgree := ha
    exact lowerCall_fits ha hf (lowerCall_scaled h)
  | .choice control a b _, target, _, _, _, _, ha, hf, h => by
    obtain ⟨whereFalse, whereTrue, _, choices, hFalse, hTrue, hm, rfl⟩ := lowerCall_choice h
    simp only [Operation.branchesAgree, Bool.and_eq_true, beq_iff_eq, Bool.or_eq_true,
      Bool.not_eq_true'] at ha
    obtain ⟨⟨⟨haa, hab⟩, hdet⟩, hsize⟩ := ha
    have hb : b.Fits target := fun hd => by
      have hsize : a.size == b.size := by simpa [hdet, hd] using hsize
      rw [← Quantity.surelyDiffers_congr hsize]
      exact hf (hdet.trans hd)
    intro c hc
    simp only [listCalls_append, listCalls_declarations, List.nil_append] at hc
    obtain ⟨block, hblock, hc⟩ := Mux.mem_listCalls_linearize hm hc
    simp only [List.mem_cons, List.not_mem_nil, or_false] at hblock
    rcases hblock with rfl | rfl
    · exact lowerCall_fits hab hb hFalse c hc
    · exact lowerCall_fits haa hf hTrue c hc

theorem lowerSequence_fits [Fingerprint] : ∀ {ops : List Operation} {target : Qubits}
    {site : Option Location} {s s' : Scopes} {code : List Instruction}, Operation.allAgree ops →
    Yields (lowerSequence target site ops) s code s' → ∀ c ∈ listCalls code, Elementary.Fits c
  | [], _, _, _, _, _, _, h => by obtain ⟨rfl, -⟩ := lowerSequence_nil h; simp [listCalls]
  | _ :: _, target, _, _, _, _, ha, h => by
    obtain ⟨hcheck, first, rest, _, hfirst, hrest, rfl⟩ := lowerSequence_cons h
    simp only [Operation.allAgree, Bool.and_eq_true] at ha
    have hf : Operation.Fits _ target := fun hd =>
      Quantity.not_surelyDiffers_of_eq (Quantity.beq_iff.1 (checkElement_ok hcheck hd))
    intro c hc
    rcases List.mem_append.1 (listCalls_append ▸ hc) with hc | hc
    · exact lowerCall_fits ha.1 hf hfirst c hc
    · exact lowerSequence_fits ha.2 hrest c hc

theorem lowerParts_fits [Fingerprint] : ∀ {ops : List Operation} {target : Qubits}
    {site : Option Location} {start remainder : Quantity} {sizes : List Quantity} {s s' : Scopes}
    {code : List Instruction}, Operation.allAgree ops →
    sizes = ops.map (fun op => if op.isDetermined then op.size else remainder) →
    Yields (lowerParts target site start sizes ops) s code s' →
    ∀ c ∈ listCalls code, Elementary.Fits c
  | [], _, _, _, _, _, _, _, _, _, _, h => by
    obtain ⟨rfl, -⟩ := lowerParts_nil h; simp [listCalls]
  | op :: ops, target, _, start, _, _, _, _, _, ha, hs, h => by
    subst hs
    rcases lowerParts_cons h with ⟨hnil, -, -⟩ | ⟨size, _, part, first, rest, _, hsizes, hpart,
      hfirst, hrest, rfl⟩
    · simp at hnil
    · simp only [List.map_cons, List.cons.injEq] at hsizes
      simp only [Operation.allAgree, Bool.and_eq_true] at ha
      have hf : op.Fits part := Operation.fits_of_eval_eq fun hd ρ => by
        rw [Qubits.eval_size_slice hpart, Quantity.eval_add, ← hsizes.1, if_pos hd]
        grind
      intro c hc
      rcases List.mem_append.1 (listCalls_append ▸ hc) with hc | hc
      · exact lowerCall_fits ha.1 hf hfirst c hc
      · exact lowerParts_fits ha.2 hsizes.2.symm hrest c hc
end

end Lowering

/-- **No call in the lowered code of an accepted operation call surely differs in size from its
    target**, whatever was declared before. -/
theorem callSize_lowerStatement [Fingerprint] {op : Operation} {target : Qubits}
    {l : Option Location} {st : Statement} {s : Scopes} {code : List Instruction} (hop : op.Formed)
    (hst : Statement.ofCall op target l = .ok st)
    (h : (Lowering.lowerStatement st s).1 = .ok code) :
    ∀ c ∈ listCalls code, c.1.callSize.surelyDiffers c.2.size = false := by
  obtain ⟨hcheck, rfl⟩ := Lowering.ofCall_ok hst
  rw [Lowering.lowerStatement] at h
  have hf : op.Fits target := Operation.checkTarget_ok hcheck
  exact Lowering.lowerCall_fits hop.branchesAgree hf ⟨h, rfl⟩

/-- An operation on `2 * n` qubits, where `n` is inferred. -/
def pairwise : Definition :=
  ⟨"pairwise", [], ⟨⟨"r", .const 2 * .named "n", .reference⟩, some "n"⟩, none⟩

theorem resolveArgs_pairwise :
    Lowering.resolveArgs pairwise [] (.register ⟨"q", .named "m", .owner⟩) none =
      .ok [.int ((.named "m" - .const 0) / .const 2)] := by
  rw [Lowering.resolveArgs, Qubits.size]
  rfl

/-- The operation on a register of `m` qubits: half of `m` stays symbolic. -/
theorem callSize_lowerStatement_pairwise :
    (Elementary.call pairwise [.int ((.named "m" - .const 0) / .const 2)]).callSize.surelyDiffers
      (Qubits.register ⟨"q", .named "m", .owner⟩).size = false := by
  have hop : (Operation.elementary (.call pairwise []) none).Formed :=
    .call (show Operation.ofCall pairwise [] = _ from rfl)
  have hlower : (Lowering.lowerStatement (.call (.elementary (.call pairwise []) none)
      (.register ⟨"q", .named "m", .owner⟩) none) Scopes.initial).1 =
      .ok [.act (.apply (.call pairwise [.int ((.named "m" - .const 0) / .const 2)])
        (.register ⟨"q", .named "m", .owner⟩)) none] := by
    simp only [Lowering.lowerStatement, Lowering.lowerCall, Option.or_none, resolveArgs_pairwise]
    rfl
  exact callSize_lowerStatement hop (show Statement.ofCall _ _ none = _ from rfl) hlower
    (.call pairwise _, _) (List.mem_singleton.2 rfl)

end QuantumLowering
