/-
  Descriptions without source positions.

  * `Quantity.unlocated`, `Qubits.unlocated`: the same value, no node with a position.
  * `Qubits.beq_iff_unlocated`: two descriptions are equal if and only if they are the same up to
    positions.  So their equality is an equivalence.
  * `Qubits.exists_part_of_beq`: equal descriptions have equal parts.
-/
import QuantumLowering.Qubits.Equality

namespace QuantumLowering

/-- The same quantity without its position. -/
def Quantity.unlocated (a : Quantity) : Quantity := ⟨a.poly, none⟩

theorem Quantity.unlocated_inj {a b : Quantity} :
    a.unlocated = b.unlocated ↔ a.poly = b.poly := by
  simp [unlocated]

/-- The same register, its size without a position. -/
def QuantumVariable.unlocated (v : QuantumVariable) : QuantumVariable :=
  { v with size := v.size.unlocated }

theorem QuantumVariable.beq_iff_unlocated {v w : QuantumVariable} :
    v == w ↔ v.unlocated = w.unlocated := by
  cases v; cases w
  simp [beq_iff, unlocated, Quantity.unlocated_inj]

namespace Qubits

mutual
/-- The same description without positions. -/
def unlocated : Qubits → Qubits
  | .register v => .register v.unlocated
  | .fresh number size init => .fresh number size.unlocated (init.map Quantity.unlocated)
  | .strided q start stop step =>
    .strided q.unlocated start.unlocated stop.unlocated step.unlocated
  | .single q index => .single q.unlocated index.unlocated
  | .joined qs => .joined (unlocatedList qs)

/-- `unlocated` on each of several descriptions. -/
def unlocatedList : List Qubits → List Qubits
  | [] => []
  | q :: qs => q.unlocated :: unlocatedList qs
end

mutual
/-- **Descriptions are equal when they are the same up to positions.** -/
theorem beq_iff_unlocated : ∀ (q r : Qubits), beq q r ↔ q.unlocated = r.unlocated
  | .register _, r => by
    cases r <;> simp [beq, unlocated, QuantumVariable.beq_iff_unlocated]
  | .fresh _ _ init, r => by
    cases r with
    | fresh _ _ init' =>
      cases init <;> cases init' <;>
        simp [beq, unlocated, Quantity.unlocated_inj, Quantity.beq_iff, and_assoc]
    | _ => simp [beq, unlocated]
  | .strided q .., r => by
    cases r <;> simp [beq, unlocated, Quantity.unlocated_inj, Quantity.beq_iff, and_assoc,
      beq_iff_unlocated q]
  | .single q _, r => by
    cases r <;> simp [beq, unlocated, Quantity.unlocated_inj, Quantity.beq_iff,
      beq_iff_unlocated q]
  | .joined qs, r => by cases r <;> simp [beq, unlocated, beqList_iff_unlocated qs]

/-- `beq_iff_unlocated` on lists. -/
theorem beqList_iff_unlocated : ∀ (qs rs : List Qubits),
    beqList qs rs ↔ unlocatedList qs = unlocatedList rs
  | [], rs => by cases rs <;> simp [beqList, unlocatedList]
  | q :: qs, rs => by
    cases rs <;> simp [beqList, unlocatedList, beq_iff_unlocated q,
      beqList_iff_unlocated qs]
end

instance : EquivBEq Qubits where
  rfl := by simp [beq_eq, beq_self]
  symm h := by rw [beq_eq, beq_iff_unlocated] at h ⊢; exact h.symm
  trans h k := by rw [beq_eq, beq_iff_unlocated] at h k ⊢; exact h.trans k

/-! ## Parts of equal descriptions -/

variable {q r p : Qubits}

theorem unlocatedList_eq_map (qs : List Qubits) : unlocatedList qs = qs.map unlocated := by
  induction qs with
  | nil => rfl
  | cons q qs ih => rw [unlocatedList, ih, List.map_cons]

theorem isDeclarable_unlocated (q : Qubits) : q.unlocated.isDeclarable = q.isDeclarable := by
  cases q <;> rfl

theorem parts_unlocated (q : Qubits) : q.unlocated.parts = q.parts.map unlocated := by
  cases q with
  | joined qs => exact unlocatedList_eq_map qs
  | _ => rfl

theorem isDeclarable_congr (h : q == r) : q.isDeclarable = r.isDeclarable := by
  rw [beq_eq, beq_iff_unlocated] at h
  rw [← isDeclarable_unlocated q, h, isDeclarable_unlocated]

/-- Equal descriptions have equal parts. -/
theorem exists_part_of_beq (h : q == r) (hp : p ∈ q.parts) : ∃ p' ∈ r.parts, p == p' := by
  rw [beq_eq, beq_iff_unlocated] at h
  have hmem : p.unlocated ∈ r.parts.map unlocated := by
    rw [← parts_unlocated r, ← h, parts_unlocated q]
    exact List.mem_map_of_mem hp
  obtain ⟨p', hp', he⟩ := List.mem_map.1 hmem
  refine ⟨p', hp', ?_⟩
  rw [beq_eq, beq_iff_unlocated, he]

end Qubits

end QuantumLowering
