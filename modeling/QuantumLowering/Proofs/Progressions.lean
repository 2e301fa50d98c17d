/-
  Arithmetic progressions below a bound.

  * `positions a b c`: the integers `a`, `a + c`, `a + 2 * c` and so on below `b`.
  * `mem_positions_iff`: they are what counting up in steps meets.
  * `card_positions`: there are as many as `c` divides the span, rounded up.
  * `card_positions_eq_max`: the same by one division, also where the bound is below the start.
-/
import Mathlib.Algebra.Order.Ring.Int
import Mathlib.Data.Finset.Card
import Mathlib.Tactic.Positivity

namespace QuantumLowering

/-- The integers `a`, `a + c`, `a + 2 * c` and so on below `b`, for a positive step `c`: then less
    than `b - a` steps lead to one of them. -/
def positions (a b c : Int) : Finset Int :=
  {i ∈ (Finset.range (b - a).toNat).image fun k : Nat => a + k * c | i < b}

variable {a b c d i k : Int}

theorem mem_positions_iff (hc : 0 < c) :
    i ∈ positions a b c ↔ i < b ∧ ∃ k : Nat, i = a + k * c := by
  simp only [positions, Finset.mem_filter, Finset.mem_image, Finset.mem_range]
  constructor
  · rintro ⟨⟨k, -, rfl⟩, hb⟩
    exact ⟨hb, k, rfl⟩
  · rintro ⟨hb, k, rfl⟩
    have hk : (k : Int) ≤ k * c := le_mul_of_one_le_right (Int.natCast_nonneg k) hc
    exact ⟨⟨k, by omega, rfl⟩, hb⟩

/-- The multiples of `c` below `d` are those of the numbers below the quotient, rounded up. -/
theorem mul_lt_iff_lt_div (hc : 0 < c) : k * c < d ↔ k < d / c + if c ∣ d then 0 else 1 := by
  split
  · rename_i h
    obtain ⟨q, rfl⟩ := h
    rw [Int.mul_ediv_cancel_left _ hc.ne', Int.add_zero, Int.mul_comm c, Int.mul_lt_mul_right hc]
  · rename_i h
    have hne : k * c ≠ d := fun heq => h ⟨k, by rw [← heq, Int.mul_comm]⟩
    rw [Int.lt_add_one_iff, Int.le_ediv_iff_mul_le hc]
    exact ⟨le_of_lt, fun hle => lt_of_le_of_ne hle hne⟩

/-- There are as many positions as the step divides the span, rounded up. -/
theorem card_positions (hc : 0 < c) (hab : a ≤ b) :
    ((positions a b c).card : Int) = (b - a) / c + if c ∣ b - a then 0 else 1 := by
  have hnonneg : 0 ≤ (b - a) / c := Int.ediv_nonneg (by omega) hc.le
  obtain ⟨n, hn⟩ := Int.eq_ofNat_of_zero_le
    (show 0 ≤ (b - a) / c + if c ∣ b - a then 0 else 1 by split <;> omega)
  have himage : positions a b c = (Finset.range n).image fun k : Nat => a + k * c := by
    ext i
    rw [mem_positions_iff hc, Finset.mem_image]
    have hlt (k : Nat) : a + k * c < b ↔ k < n := by
      rw [← lt_sub_iff_add_lt', mul_lt_iff_lt_div hc, hn, Int.ofNat_lt]
    constructor
    · rintro ⟨hb, k, rfl⟩
      exact ⟨k, Finset.mem_range.2 ((hlt k).1 hb), rfl⟩
    · rintro ⟨k, hk, rfl⟩
      exact ⟨(hlt k).2 (Finset.mem_range.1 hk), k, rfl⟩
  have hinj : Function.Injective fun k : Nat => a + k * c := fun k l h =>
    Int.ofNat_inj.1 (Int.eq_of_mul_eq_mul_right hc.ne' (Int.add_left_cancel h))
  rw [himage, Finset.card_image_of_injective _ hinj, Finset.card_range, hn]

/-- A span of one has one position, whatever the step is. -/
theorem card_positions_one (hc : 0 < c) (h : b - a = 1) : (positions a b c).card = 1 := by
  refine Finset.card_eq_one.2 ⟨a, Finset.ext fun i => ?_⟩
  rw [mem_positions_iff hc, Finset.mem_singleton]
  constructor
  · rintro ⟨hlt, k, rfl⟩
    have : 0 ≤ (k : Int) * c := by positivity
    omega
  · rintro rfl
    exact ⟨by omega, 0, by simp⟩

/-- Adding one less than the divisor rounds a quotient up. -/
theorem add_sub_one_div (hc : 0 < c) : (d + (c - 1)) / c = d / c + if c ∣ d then 0 else 1 := by
  refine eq_of_forall_lt_iff fun k => ?_
  rw [← mul_lt_iff_lt_div hc, ← Int.add_one_le_iff, Int.le_ediv_iff_mul_le hc, Int.add_mul]
  omega

theorem card_positions_of_le (h : b ≤ a) : (positions a b c).card = 0 := by
  rw [positions, Int.toNat_of_nonpos (by omega)]
  rfl

/-- The number of positions; there are none if the bound is not above the start. -/
theorem card_positions_eq_max (hc : 0 < c) :
    ((positions a b c).card : Int) = max 0 ((b - a + (c - 1)) / c) := by
  by_cases hab : a ≤ b
  · have hnonneg : 0 ≤ (b - a + (c - 1)) / c := Int.ediv_nonneg (by omega) hc.le
    rw [card_positions hc hab, ← add_sub_one_div hc, max_eq_right hnonneg]
  · have hnonpos : (b - a + (c - 1)) / c < 1 := Int.ediv_lt_of_lt_mul hc (by omega)
    rw [card_positions_of_le (by omega), max_eq_left (by omega)]
    rfl

end QuantumLowering
