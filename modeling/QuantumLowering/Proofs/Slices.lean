/-
  Elements and slices of qubits.

  * `Qubits.element_ok`, `Qubits.slice_ok`: the checks that an address has passed, and the
    description it stands for.
  * `Qubits.poly_size_slice`: a slice has the size that its bounds span.
  * `Lowering.eval_size_copyPart`: the part for one copy has the size it was asked for.
  * `Lowering.splitSizes_eq_ok`: the sizes of the parts for the elements of a combination.
-/
import QuantumLowering.Proofs.Constants
import QuantumLowering.Lowering

namespace QuantumLowering

namespace Qubits

variable {q part : Qubits} {start stop index : Quantity} {ρ : Symbol → Int64}

/-- An element has a non-negative constant index below a constant size, or an unknown index. -/
theorem element_ok (h : q.element index = .ok part) :
    part = .single q index ∧ ∀ i, index.constant? = some i →
      0 ≤ i ∧ ∀ n, q.size.constant? = some n → i < n := by
  unfold element at h
  split at h
  · rename_i hi
    exact ⟨(Except.ok.inj h).symm, by simp [hi]⟩
  · rename_i i hi
    simp only [hi, Option.some.injEq, forall_eq']
    split at h
    · rename_i n hn
      simp only [hn, Option.some.injEq, forall_eq']
      split at h
      · simp at h
      · rename_i hin
        simp only [not_or, Int64.not_lt, Int64.not_le] at hin
        exact ⟨(Except.ok.inj h).symm, hin⟩
    · rename_i hn
      split at h
      · simp at h
      · rename_i hin
        exact ⟨(Except.ok.inj h).symm, Int64.not_lt.1 hin, by simp [hn]⟩

/-- The ends of a slice do not lie before the start or past the end of the qubits, and a slice
    of one index is that element. -/
theorem slice_ok (h : q.slice start stop = .ok part) :
    (∀ c, start.constant? = some c → 0 ≤ c) ∧
      (∀ d, (stop - start).constant? = some d → 0 < d) ∧
      (((stop - start).constant? = some 1 ∧ q.element start = .ok part) ∨
        ((stop - start).constant? ≠ some 1 ∧ q.pastEnd? stop = none ∧
          part = .strided q start stop (.const 1))) := by
  simp only [slice, sliceWith, Bool.false_eq_true, if_false] at h
  split at h
  · simp at h
  split at h
  · simp at h
  rename_i _ hstart
  split at h
  · simp at h
  rename_i hspan
  have hstart : ∀ c, start.constant? = some c → 0 ≤ c := fun c hc => by
    simpa [hc] using hstart
  have hspan : ∀ d, (stop - start).constant? = some d → 0 < d := fun d hd => by
    simpa [hd] using hspan
  refine ⟨hstart, hspan, ?_⟩
  split at h
  · rename_i h1
    exact .inl ⟨by simpa using h1, h⟩
  · rename_i h1
    split at h
    · simp at h
    · rename_i hend
      exact .inr ⟨by simpa using h1, hend, (Except.ok.inj h).symm⟩

/-- A slice has the size that its bounds span. -/
theorem poly_size_slice (h : q.slice start stop = .ok part) :
    part.size.poly = (stop - start).poly := by
  obtain ⟨-, -, ⟨h1, h⟩ | ⟨-, -, rfl⟩⟩ := slice_ok h
  · obtain ⟨rfl, -⟩ := element_ok h
    rw [size, Polynomial.eq_one_of_constant? h1]
    rfl
  · rw [size, Quantity.poly_div_one]

theorem eval_size_slice (h : q.slice start stop = .ok part) :
    part.size.eval ρ = stop.eval ρ - start.eval ρ := by
  rw [Quantity.eval, poly_size_slice h]
  exact Quantity.eval_sub

end Qubits

namespace Lowering

variable {target part : Qubits} {partSize index : Quantity} {ρ : Symbol → Int64}

/-- The part for one copy is an element of a part of size one, and a slice otherwise. -/
theorem copyPart_ok (h : copyPart target partSize index = .ok part) :
    (partSize.constant? = some 1 ∧ target.element index = .ok part) ∨
      (partSize.constant? ≠ some 1 ∧
        target.slice (partSize * index) (partSize * index + partSize) = .ok part) := by
  unfold copyPart at h
  split at h
  · rename_i h1
    exact .inl ⟨by simpa [Quantity.isConst] using h1, h⟩
  · rename_i h1
    exact .inr ⟨by simpa [Quantity.isConst] using h1, h⟩

/-- The part for one copy has the size it was asked for. -/
theorem eval_size_copyPart (h : copyPart target partSize index = .ok part) :
    part.size.eval ρ = partSize.eval ρ := by
  rcases copyPart_ok h with ⟨h1, h⟩ | ⟨-, h⟩
  · obtain ⟨rfl, -⟩ := Qubits.element_ok h
    rw [Qubits.size, Quantity.eval_const, Quantity.eval_of_constant? h1]
  · rw [Qubits.eval_size_slice h, Quantity.eval_add]
    grind

/-- A target is split into the determined sizes and one size for all others, of which there is
    at most one. -/
theorem splitSizes_eq_ok {op : Operation} {ops : List Operation} {sizes : List Quantity}
    {l : Option Location} (h : splitSizes op ops target l = .ok sizes) :
    (sizes = ops.map fun op => if op.isDetermined then op.size else target.size - knownSize ops) ∧
      (ops.filter fun op => !op.isDetermined).length ≤ 1 := by
  unfold splitSizes at h
  split at h
  · simp at h
  · rename_i hfew
    refine ⟨(Except.ok.inj h).symm, ?_⟩
    match hops : ops.filter fun op => !op.isDetermined with
    | [] | [_] => simp [hops]
    | a :: b :: os => exact absurd hops (hfew a b os)

end Lowering

end QuantumLowering
