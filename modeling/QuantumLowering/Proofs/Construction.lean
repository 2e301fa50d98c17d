/-
  Operations as their constructors build them.

  * `Operation.Formed`: the operations that the constructors can build, in any order and at any
    position.
  * `Operation.branchesAgree`: the branches of every quantum choice agree on their size.
  * `Operation.Formed.branchesAgree`: constructed operations have this property.
-/
import QuantumLowering.Proofs.Evaluation
import QuantumLowering.Operation

namespace QuantumLowering

namespace Operation

/-- The operations that can be constructed. -/
inductive Formed : Operation → Prop
  | gate (g : Gate) : Formed (ofGate g)
  | call {d args op} : ofCall d args = .ok op → Formed op
  | sequence {ops op} : (∀ o ∈ ops, Formed o) → ofSequence ops = .ok op → Formed op
  | combination {ops op} : (∀ o ∈ ops, Formed o) → ofCombination ops = .ok op → Formed op
  | power {base} (copies : Quantity) : Formed base → Formed (ofPower base copies)
  | adjoint {base} : Formed base → Formed (ofAdjoint base)
  | scaled {base} (c : Scalar) : Formed base → Formed (ofScaled c base)
  | choice {control a b op} : Formed a → Formed b → ofChoice control a b = .ok op → Formed op
  | withLocation {op} (l : Location) : Formed op → Formed (op.withLocation l)

mutual
/-- Whether the branches of every choice agree on whether their size is determined and, if it
    is, on the size. -/
def branchesAgree : Operation → Bool
  | .elementary .. => true
  | .sequence es _ | .combination es _ => allAgree es
  | .power base _ _ | .adjoint base _ | .scaled _ base _ => base.branchesAgree
  | .choice _ a b _ =>
    a.branchesAgree && b.branchesAgree && a.isDetermined == b.isDetermined &&
      (!a.isDetermined || a.size == b.size)

/-- `branchesAgree` of every operation. -/
def allAgree : List Operation → Bool
  | [] => true
  | op :: ops => op.branchesAgree && allAgree ops
end

theorem allAgree_iff {ops : List Operation} :
    allAgree ops ↔ ∀ op ∈ ops, op.branchesAgree := by
  induction ops with
  | nil => simp [allAgree]
  | cons op ops ih => simp [allAgree, ih]

/-! ## What the constructors check -/

variable {op a b : Operation} {ops : List Operation}

theorem ofCall_eq_ok {d : Definition} {args : List ClassicalValue}
    (h : ofCall d args = .ok op) : op = elementary (.call d args) none := by
  unfold ofCall at h
  split at h
  · exact (Except.ok.inj h).symm
  · simp at h

theorem ofSequence_eq_ok (h : ofSequence ops = .ok op) : op = sequence ops none := by
  unfold ofSequence at h
  split at h
  · simp at h
  · split at h
    · exact (Except.ok.inj h).symm
    · split at h
      · simp at h
      · exact (Except.ok.inj h).symm

theorem ofCombination_eq_ok (h : ofCombination ops = .ok op) : op = combination ops none := by
  unfold ofCombination at h
  split at h
  · simp at h
  · exact (Except.ok.inj h).symm

theorem ofChoice_eq_ok {control : Qubits} (h : ofChoice control a b = .ok op) :
    op = choice control a b none ∧ a.isDetermined = b.isDetermined ∧
      (a.isDetermined → a.size == b.size) := by
  unfold ofChoice at h
  split at h
  · simp at h
  · rename_i hdet
    split at h
    · simp at h
    · rename_i hsize
      exact ⟨(Except.ok.inj h).symm, by simpa using hdet, fun ha => by simpa [ha, bne] using hsize⟩

theorem size_ofGate {g : Gate} : (ofGate g).size = .const (Int64.ofNat g.qubits) := by
  rw [ofGate, size]

/-- A determined size does not surely differ from that of an accepted target. -/
theorem checkTarget_ok {target : Qubits} {l : Option Location}
    (h : op.checkTarget target l = .ok ()) (hd : op.isDetermined) :
    op.size.surelyDiffers target.size = false := by
  unfold checkTarget at h
  split at h
  · simp at h
  · rename_i hn
    simpa [hd] using hn

/-- Constructed operations have choices whose branches agree. -/
theorem Formed.branchesAgree (h : op.Formed) : op.branchesAgree := by
  induction h with
  | gate => rfl
  | call h => rw [ofCall_eq_ok h]; rfl
  | sequence _ h ih => rw [ofSequence_eq_ok h]; exact allAgree_iff.2 ih
  | combination _ h ih => rw [ofCombination_eq_ok h]; exact allAgree_iff.2 ih
  | power _ _ ih | adjoint _ ih | scaled _ _ ih => exact ih
  | choice _ _ h iha ihb =>
    obtain ⟨rfl, hdet, hsize⟩ := ofChoice_eq_ok h
    simp only [Operation.branchesAgree, iha, ihb, hdet, beq_self_eq_true, Bool.true_and,
      Bool.or_eq_true, Bool.not_eq_true']
    rw [← hdet]
    exact (Bool.eq_false_or_eq_true _).symm.imp_right hsize
  | @withLocation op _ _ ih => cases op <;> exact ih

end Operation

end QuantumLowering
