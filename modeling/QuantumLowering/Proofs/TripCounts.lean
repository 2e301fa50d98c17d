/-
  Trip counts of ranges with constant bounds.

  * `LoopRange.value_tripCount`: the value of a trip count, one quotient for every positive
    increment.
  * `tdiv_eq_max_iff`: where truncation rounds like the next lower number, cut off at zero.
  * `LoopRange.tripCount_eq_card_iff`: a trip count is the number of iterations unless the bound lies
    too far below the start or the sum that rounds the quotient up overflows.
-/
import QuantumLowering.Proofs.ConstantSlices

namespace QuantumLowering

/-- A truncated quotient counts the multiples below if it rounds to zero at least. -/
theorem tdiv_eq_max_iff {n c : Int} (hc : 0 < c) : n.tdiv c = max 0 (n / c) ↔ -c < n := by
  by_cases hn : 0 ≤ n
  · have hnonneg : 0 ≤ n / c := Int.ediv_nonneg hn hc.le
    rw [Int.tdiv_eq_ediv_of_nonneg hn, max_eq_right hnonneg]
    exact iff_of_true rfl (by omega)
  · have hneg : n / c < 0 := Int.ediv_neg_of_neg_of_pos (by omega) hc
    have hopposite : n.tdiv c = -(-n / c) := by
      rw [← Int.tdiv_eq_ediv_of_nonneg (by omega), Int.neg_tdiv, Int.neg_neg]
    have hlow : 0 ≤ -n / c := Int.ediv_nonneg (by omega) hc.le
    have hhigh : -n / c < 1 ↔ -n < 1 * c := Int.ediv_lt_iff_lt_mul hc
    rw [hopposite, max_eq_left hneg.le]
    omega

namespace LoopRange

variable {r : LoopRange} {I : Interpretation} {ρ : String → Int64} {a b c : Int64}

/-- The span as it is computed. -/
theorem constant?_span (hstart : r.start.constant? = some a) (hstop : r.stop.constant? = some b) :
    (r.bound - r.start).constant? = some (Int64.ofInt (exclusiveEnd b r.inclusive) - a) :=
  Quantity.constant?_sub (Qubits.constant?_stop hstop) hstart

/-- The span is not divided by the increment one, but it could be. -/
theorem value_tripCount (hI : ∀ y z, I.operator .div y z = y / z)
    (hstart : r.start.constant? = some a) (hstop : r.stop.constant? = some b)
    (hstep : r.step.constant? = some c) :
    r.tripCount.value I ρ = (Int64.ofInt (exclusiveEnd b r.inclusive) - a + c - 1) / c := by
  have hspan := constant?_span hstart hstop
  unfold tripCount
  dsimp only
  split
  · rename_i hone
    obtain rfl : c = 1 := by simpa [Quantity.isConst, hstep] using hone
    rw [Quantity.value_of_constant? hspan, Int64.add_sub_cancel, Int64.div_one]
  · have hsum := Quantity.constant?_sub (Quantity.constant?_add hspan hstep)
      (Quantity.constant?_const (c := 1))
    exact Quantity.value_div hI hsum hstep

/-- **The trip count of a range is its number of iterations** exactly if the bound is not further
    below the start than twice the increment less two, and the span rounded up does not overflow.  A
    quotient that stays symbolic is read as the truncated one. -/
theorem tripCount_eq_card_iff (hI : ∀ y z, I.operator .div y z = y / z)
    (hstart : r.start.constant? = some a) (hstop : r.stop.constant? = some b)
    (hstep : r.step.constant? = some c) (hc : 1 ≤ c.toInt)
    (hspan : fits64 (exclusiveEnd b r.inclusive - a.toInt)) :
    (r.tripCount.value I ρ).toInt =
        ((positions a.toInt (exclusiveEnd b r.inclusive) c.toInt).card : Int) ↔
      2 - 2 * c.toInt ≤ exclusiveEnd b r.inclusive - a.toInt ∧
        fits64 (exclusiveEnd b r.inclusive - a.toInt + (c.toInt - 1)) := by
  have hpos : 0 < c.toInt := hc
  have hcfits := fits64_toInt c
  have hminus : c ≠ -1 := by
    rintro rfl
    exact absurd hc (by decide)
  have hrounded : Int64.ofInt (exclusiveEnd b r.inclusive) - a + c - 1 =
      Int64.ofInt (exclusiveEnd b r.inclusive - a.toInt + (c.toInt - 1)) := by
    simp only [Int64.ofInt_add, Int64.ofInt_sub, Int64.ofInt_toInt]
    grind
  rw [value_tripCount hI hstart hstop hstep, hrounded, Int64.toInt_div_of_ne_right _ _ hminus,
    card_positions_eq_max hpos]
  generalize exclusiveEnd b r.inclusive - a.toInt = span at *
  by_cases hfits : fits64 (span + (c.toInt - 1))
  · rw [toInt_ofInt hfits, tdiv_eq_max_iff hpos]
    simp only [hfits, and_true]
    omega
  · -- the sum comes out negative, but there is an iteration
    obtain ⟨k, hk⟩ := dvd_sub_toInt_ofInt (span + (c.toInt - 1))
    have hwrapped := fits64_toInt (Int64.ofInt (span + (c.toInt - 1)))
    rw [fits64_iff] at hcfits hfits hspan hwrapped
    have hle := Int.tdiv_le_tdiv hpos
      (show (Int64.ofInt (span + (c.toInt - 1))).toInt ≤ 0 by omega)
    have hone : 1 ≤ (span + (c.toInt - 1)) / c.toInt := Int.le_ediv_of_mul_le hpos (by omega)
    rw [Int.zero_tdiv] at hle
    rw [max_eq_right (by omega), fits64_iff]
    omega

/-- Every third number from 0 to 10, which 3 does not divide: there are four.  None are there from 5
    to 3, with an increment of two. -/
theorem tripCount_eq_card_iff_thirds :
    let r : LoopRange := ⟨.const 0, .const 10, .const 3, true⟩
    let empty : LoopRange := ⟨.const 5, .const 3, .const 2, false⟩
    (∀ y z, Qubits.truncating.operator .div y z = y / z) ∧
      r.start.constant? = some 0 ∧ r.stop.constant? = some 10 ∧ r.step.constant? = some 3 ∧
      1 ≤ (3 : Int64).toInt ∧ fits64 (exclusiveEnd 10 true - (0 : Int64).toInt) ∧
      (r.tripCount.value Qubits.truncating fun _ => 0).toInt = ((positions 0 11 3).card : Int) ∧
      (positions 0 11 3).card = 4 ∧
      (empty.tripCount.value Qubits.truncating fun _ => 0).toInt = ((positions 5 3 2).card : Int) ∧
      (positions 5 3 2).card = 0 := by
  intro r empty
  have hthirds := @tripCount_eq_card_iff r Qubits.truncating (fun _ => 0) 0 10 3
    (fun _ _ => rfl) rfl rfl rfl (by decide) (by decide)
  have hempty := @tripCount_eq_card_iff empty Qubits.truncating (fun _ => 0) 5 3 2
    (fun _ _ => rfl) rfl rfl rfl (by decide) (by decide)
  exact ⟨fun _ _ => rfl, rfl, rfl, rfl, by decide, by decide, hthirds.2 (by decide), by decide,
    hempty.2 (by decide), by decide⟩

/-- A range that ends before it starts has no iteration and a negative trip count, and so has a
    range whose rounded span overflows. -/
theorem tripCount_backwards :
    let backwards := upTo (.const 5) (.const 3)
    let long : LoopRange := ⟨.const 0, .const Int64.maxValue, .const 2, false⟩
    (fits64 (exclusiveEnd 3 false) ∧ fits64 (exclusiveEnd 3 false - (5 : Int64).toInt) ∧
      (backwards.tripCount.value Qubits.truncating fun _ => 0) = -2 ∧ (positions 5 3 1).card = 0) ∧
    fits64 (exclusiveEnd Int64.maxValue false) ∧
      fits64 (exclusiveEnd Int64.maxValue false - (0 : Int64).toInt) ∧
      (long.tripCount.value Qubits.truncating fun _ => 0) = -4611686018427387904 ∧
      (positions 0 9223372036854775807 2).card = 4611686018427387904 := by
  intro backwards long
  have hcard : ((positions 0 9223372036854775807 2).card : Int) = 4611686018427387904 := by
    rw [card_positions_eq_max (by decide)]
    rfl
  have hbackwards : backwards.tripCount.constant? = some (-2) := by decide
  have hlong : long.tripCount.constant? = some (-4611686018427387904) := by decide
  exact ⟨⟨by decide, by decide, Quantity.value_of_constant? hbackwards, by decide⟩, by decide,
    by decide, Quantity.value_of_constant? hlong, by omega⟩

end LoopRange

end QuantumLowering
