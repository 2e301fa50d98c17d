/-
  The names of loop indices.

  * `Operation.powers`: the tensor powers in an operation, each of which is lowered to a loop.
  * `Operation.Separated`: the loops of powers with different texts have indices of different
    names.  This is not so for every operation, since texts may share a fingerprint.
  * `Operation.Apart`: besides, none of the indices has one of the given names.
  * `Operation.Apart.power`: inside the loop of a power the name of its index is not taken again,
    since the powers in its base have shorter texts.
-/
import QuantumLowering.Lowering

namespace QuantumLowering

open Lowering (powerIndex)

namespace Operation

variable {op op' base a b p : Operation} {ops : List Operation} {l : Option Location}

/-! ## Tensor powers in an operation -/

mutual
/-- The tensor powers in an operation, which is one of them if it is a power itself. -/
def powers : Operation → List Operation
  | .elementary .. => []
  | .sequence ops _ | .combination ops _ => powersAll ops
  | .power base copies l => .power base copies l :: powers base
  | .adjoint base _ | .scaled _ base _ => powers base
  | .choice _ a b _ => powers a ++ powers b

/-- The tensor powers in several operations. -/
def powersAll : List Operation → List Operation
  | [] => []
  | op :: ops => powers op ++ powersAll ops
end

theorem mem_powersAll : p ∈ powersAll ops ↔ ∃ op ∈ ops, p ∈ op.powers := by
  induction ops with
  | nil => simp [powersAll]
  | cons op ops ih => simp [powersAll, ih]

theorem powers_subset_sequence (h : op ∈ ops) : op.powers ⊆ (sequence ops l).powers := by
  intro p hp
  rw [powers]
  exact mem_powersAll.2 ⟨op, h, hp⟩

theorem powers_subset_combination (h : op ∈ ops) : op.powers ⊆ (combination ops l).powers := by
  intro p hp
  rw [powers]
  exact mem_powersAll.2 ⟨op, h, hp⟩

theorem powers_subset_power {copies : Quantity} : base.powers ⊆ (power base copies l).powers := by
  rw [powers]
  exact List.subset_cons_self _ _

theorem powers_subset_choice {control : Qubits} :
    a.powers ⊆ (choice control a b l).powers ∧ b.powers ⊆ (choice control a b l).powers := by
  rw [powers]
  exact ⟨List.subset_append_left _ _, List.subset_append_right _ _⟩

/-! ## Texts of parts -/

/-- The length of the text. -/
def textSize (op : Operation) : Nat := op.render.utf8ByteSize

theorem mem_renderList (h : op ∈ ops) : op.render ∈ renderList ops := by
  induction ops with
  | nil => simp at h
  | cons o os ih =>
    rcases List.mem_cons.1 h with rfl | h
    · simp [renderList]
    · simp [renderList, ih h]

theorem utf8ByteSize_le_intercalate {t s : String} :
    ∀ {ss : List String}, s ∈ ss → s.utf8ByteSize ≤ (t.intercalate ss).utf8ByteSize
  | [_], h => by simp_all
  | _ :: _ :: ss, h => by
    rw [String.intercalate_cons_cons, String.utf8ByteSize_append, String.utf8ByteSize_append]
    rcases List.mem_cons.1 h with rfl | h
    · omega
    · have := utf8ByteSize_le_intercalate (t := t) h
      omega

theorem textSize_le_sequence (h : op ∈ ops) : op.textSize ≤ (sequence ops l).textSize := by
  have := utf8ByteSize_le_intercalate (t := ", ") (mem_renderList h)
  simp only [textSize, render, String.utf8ByteSize_append]
  omega

theorem textSize_le_combination (h : op ∈ ops) : op.textSize ≤ (combination ops l).textSize := by
  have := utf8ByteSize_le_intercalate (t := " . ") (mem_renderList h)
  simp only [textSize, render, String.utf8ByteSize_append]
  omega

theorem textSize_base_lt {copies : Quantity} : base.textSize < (power base copies l).textSize := by
  have : ("@" : String).utf8ByteSize = 1 := rfl
  simp only [textSize, render, String.utf8ByteSize_append]
  omega

theorem textSize_le_adjoint : base.textSize ≤ (adjoint base l).textSize := by
  simp only [textSize, render, String.utf8ByteSize_append]
  omega

theorem textSize_le_scaled {c : Scalar} : base.textSize ≤ (scaled c base l).textSize := by
  simp only [textSize, render, String.utf8ByteSize_append]
  omega

theorem textSize_le_choice {q : Qubits} :
    a.textSize ≤ (choice q a b l).textSize ∧ b.textSize ≤ (choice q a b l).textSize := by
  simp only [textSize, render, String.utf8ByteSize_append]
  omega

mutual
/-- The text of an operation is at least as long as those of the powers in it. -/
theorem textSize_le_of_mem_powers : ∀ {op : Operation}, p ∈ op.powers →
    p.textSize ≤ op.textSize
  | .elementary .., h => by simp [powers] at h
  | .sequence .., h => by
    rw [powers] at h
    obtain ⟨op, hop, hle⟩ := exists_textSize_le h
    exact Nat.le_trans hle (textSize_le_sequence hop)
  | .combination .., h => by
    rw [powers] at h
    obtain ⟨op, hop, hle⟩ := exists_textSize_le h
    exact Nat.le_trans hle (textSize_le_combination hop)
  | .power .., h => by
    rw [powers] at h
    rcases List.mem_cons.1 h with rfl | h
    · exact Nat.le_refl _
    · exact Nat.le_trans (textSize_le_of_mem_powers h) (Nat.le_of_lt textSize_base_lt)
  | .adjoint .., h => by
    rw [powers] at h
    exact Nat.le_trans (textSize_le_of_mem_powers h) textSize_le_adjoint
  | .scaled .., h => by
    rw [powers] at h
    exact Nat.le_trans (textSize_le_of_mem_powers h) textSize_le_scaled
  | .choice .., h => by
    rw [powers] at h
    rcases List.mem_append.1 h with h | h
    · exact Nat.le_trans (textSize_le_of_mem_powers h) textSize_le_choice.1
    · exact Nat.le_trans (textSize_le_of_mem_powers h) textSize_le_choice.2

theorem exists_textSize_le : ∀ {ops : List Operation}, p ∈ powersAll ops →
    ∃ op ∈ ops, p.textSize ≤ op.textSize
  | [], h => by simp [powersAll] at h
  | op :: ops, h => by
    rw [powersAll] at h
    rcases List.mem_append.1 h with h | h
    · exact ⟨op, List.mem_cons_self, textSize_le_of_mem_powers h⟩
    · obtain ⟨op', hop', hle⟩ := exists_textSize_le h
      exact ⟨op', List.mem_cons_of_mem op hop', hle⟩
end

/-! ## Names that are not taken twice -/

variable [Fingerprint] {xs : List String}

/-- Two powers in the operation have indices of the same name only if their texts are equal. -/
def Separated (op : Operation) : Prop :=
  ∀ p ∈ op.powers, ∀ p' ∈ op.powers, (powerIndex p).name = (powerIndex p').name →
    p.render = p'.render

instance : Decidable op.Separated :=
  inferInstanceAs (Decidable (∀ p ∈ op.powers, ∀ p' ∈ op.powers,
    (powerIndex p).name = (powerIndex p').name → p.render = p'.render))

/-- The operation is separated, and the index of none of its powers has one of the names. -/
structure Apart (xs : List String) (op : Operation) : Prop where
  separated : op.Separated
  fresh : ∀ p ∈ op.powers, (powerIndex p).name ∉ xs

namespace Apart

theorem nil (h : op.Separated) : Apart [] op := ⟨h, fun _ _ => List.not_mem_nil⟩

theorem of_subset (h : Apart xs op) (hsub : op'.powers ⊆ op.powers) : Apart xs op' :=
  ⟨fun p hp p' hp' => h.separated p (hsub hp) p' (hsub hp'), fun p hp => h.fresh p (hsub hp)⟩

theorem adjoint (h : Apart xs (.adjoint base l)) : Apart xs base :=
  h.of_subset (by rw [powers]; exact List.Subset.refl _)

theorem scaled {c : Scalar} (h : Apart xs (.scaled c base l)) : Apart xs base :=
  h.of_subset (by rw [powers]; exact List.Subset.refl _)

theorem sequence (h : Apart xs (.sequence ops l)) : ∀ op ∈ ops, Apart xs op :=
  fun _ hop => h.of_subset (powers_subset_sequence hop)

theorem combination (h : Apart xs (.combination ops l)) : ∀ op ∈ ops, Apart xs op :=
  fun _ hop => h.of_subset (powers_subset_combination hop)

theorem choice {control : Qubits} (h : Apart xs (.choice control a b l)) :
    Apart xs a ∧ Apart xs b :=
  ⟨h.of_subset powers_subset_choice.1, h.of_subset powers_subset_choice.2⟩

variable {copies : Quantity}

/-- The loop of a power takes a name that none of the loops around it has. -/
theorem not_mem (h : Apart xs (.power base copies l)) :
    (powerIndex (.power base copies l)).name ∉ xs :=
  h.fresh _ (by rw [powers]; exact List.mem_cons_self)

/-- Its name is not taken inside of it. -/
theorem power (h : Apart xs (.power base copies l)) :
    Apart (xs ++ [(powerIndex (.power base copies l)).name]) base where
  separated := (h.of_subset powers_subset_power).separated
  fresh p hp hmem := by
    rcases List.mem_append.1 hmem with hmem | hmem
    · exact h.fresh p (powers_subset_power hp) hmem
    · have htext := h.separated p (powers_subset_power hp) (.power base copies l)
        (by rw [powers]; exact List.mem_cons_self) (List.mem_singleton.1 hmem)
      have hle := textSize_le_of_mem_powers hp
      have hlt : base.textSize < (Operation.power base copies l).textSize := textSize_base_lt
      rw [textSize, htext] at hle
      exact Nat.not_lt.2 hle hlt

end Apart

end Operation

end QuantumLowering
