/-
  64-bit numbers as integers.

  * `fits64`: whether an integer is a 64-bit number, so that nothing is lost by making it one.
  * `natural?`: the natural number that a 64-bit number is.
  * `int64_mod_eq_zero_iff`, `ofInt_div`: exact division in 64 bits.
-/

namespace QuantumLowering

/-- Whether an integer is a 64-bit number. -/
def fits64 (z : Int) : Prop := Int64.minValue.toInt ≤ z ∧ z ≤ Int64.maxValue.toInt

instance {z : Int} : Decidable (fits64 z) := inferInstanceAs (Decidable (_ ∧ _))

/-- The natural number that a 64-bit number is, if it is not negative. -/
def natural? (v : Int64) : Option Nat := if 0 ≤ v then some v.toInt.toNat else none

theorem fits64_iff {z : Int} :
    fits64 z ↔ -9223372036854775808 ≤ z ∧ z < 9223372036854775808 := by
  have hmin : Int64.minValue.toInt = -9223372036854775808 := rfl
  have hmax : Int64.maxValue.toInt = 9223372036854775807 := rfl
  rw [fits64, hmin, hmax]
  omega

theorem fits64_toInt (v : Int64) : fits64 v.toInt := by
  have hle := v.le_toInt
  have hlt := v.toInt_lt
  rw [fits64_iff]
  omega

theorem toInt_ofInt {z : Int} (h : fits64 z) : (Int64.ofInt z).toInt = z := by
  rw [fits64_iff] at h
  exact Int64.toInt_ofInt_of_le (by omega) (by omega)

theorem ofInt_inj {y z : Int} (hy : fits64 y) (hz : fits64 z)
    (h : Int64.ofInt y = Int64.ofInt z) : y = z := by
  rw [← toInt_ofInt hy, h, toInt_ofInt hz]

/-- Making an integer a 64-bit number takes multiples of `2 ^ 64` away. -/
theorem dvd_sub_toInt_ofInt (z : Int) :
    (18446744073709551616 : Int) ∣ z - (Int64.ofInt z).toInt := by
  rw [Int64.toInt_ofInt]
  exact Int.dvd_self_sub_bmod

/-! ## Division -/

theorem int64_mod_eq_zero_iff {r k : Int64} : r % k = 0 ↔ k.toInt ∣ r.toInt := by
  rw [← Int64.toInt_inj, Int64.toInt_mod, Int64.toInt_zero]
  exact (Int.dvd_iff_tmod_eq_zero ..).symm

theorem dvd_of_ofInt_mod {z : Int} {k : Int64} (hz : fits64 z) (h : Int64.ofInt z % k = 0) :
    k.toInt ∣ z := by
  rwa [int64_mod_eq_zero_iff, toInt_ofInt hz] at h

/-- An exact quotient, also where it overflows. -/
theorem ofInt_div {z : Int} {k : Int64} (hz : fits64 z) (h : k.toInt ∣ z) :
    Int64.ofInt z / k = Int64.ofInt (z / k.toInt) := by
  apply Int64.toInt_inj.1
  rw [Int64.toInt_div, toInt_ofInt hz, Int64.toInt_ofInt, Int.tdiv_eq_ediv_of_dvd h]

/-! ## Natural numbers -/

theorem fits64_of_le {m n : Nat} (hn : fits64 n) (h : m ≤ n) : fits64 m := by
  rw [fits64_iff] at hn ⊢
  omega

theorem toInt_ofNat {n : Nat} (h : fits64 n) : (Int64.ofNat n).toInt = n := toInt_ofInt h

theorem natural?_ofNat {n : Nat} (h : fits64 n) : natural? (Int64.ofNat n) = some n := by
  have hn : (0 : Int64) ≤ Int64.ofNat n := by
    rw [Int64.le_iff_toInt_le, toInt_ofNat h]
    exact Int.natCast_nonneg n
  rw [natural?, if_pos hn, toInt_ofNat h, Int.toNat_natCast]

theorem exists_ofNat_of_pos {v : Int64} (h : 0 < v) :
    ∃ n : Nat, 0 < n ∧ fits64 n ∧ v = Int64.ofNat n := by
  have hpos : 0 < v.toInt := Int64.lt_iff_toInt_lt.1 h
  obtain ⟨n, hn⟩ := Int.eq_ofNat_of_zero_le (Int.le_of_lt hpos)
  have hfits : fits64 n := hn ▸ fits64_toInt v
  refine ⟨n, by omega, hfits, Int64.toInt_inj.1 ?_⟩
  rw [toInt_ofNat hfits, hn]

end QuantumLowering
