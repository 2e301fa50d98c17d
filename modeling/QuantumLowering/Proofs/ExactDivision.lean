/-
  Exact division by a constant.

  * `Polynomial.isSome_divExact?_iff`: one gcd of the magnitudes tells whether the divisor divides
    every coefficient, for coefficients and divisors of either sign.
  * `Polynomial.powers_of_divExact?`: an exact quotient has the power products of the dividend.
  * `Polynomial.InOrder.divExact?_scale`: a multiple is divided exactly unless a coefficient of it
    overflows.
  * `Polynomial.Built.divExact?_sound_complete`: exact division is exact and complete.
-/
import QuantumLowering.Proofs.Equations

namespace QuantumLowering

/-! ## 64-bit numbers -/

section
variable {a d : Int64} (h : fits64 (a.toInt * d.toInt))
include h

theorem toInt_mul_of_fits64 : (a * d).toInt = a.toInt * d.toInt := by
  rw [← toInt_ofInt h, Int64.ofInt_mul, Int64.ofInt_toInt, Int64.ofInt_toInt]

/-- The quotient of a product by one of its factors is the other. -/
theorem int64_mul_div_cancel (hd : d ≠ 0) : a * d / d = a := by
  have hd' : d.toInt ≠ 0 := fun h0 => hd (Int64.toInt_inj.1 h0)
  apply Int64.toInt_inj.1
  rw [Int64.toInt_div, toInt_mul_of_fits64 h, Int.mul_tdiv_cancel _ hd']
  exact Int64.toInt_bmod_size a

theorem int64_mul_ne_zero (ha : a ≠ 0) (hd : d ≠ 0) : a * d ≠ 0 := by
  intro h0
  apply ha
  rw [← int64_mul_div_cancel h hd, h0, Int64.zero_div]

end

namespace Polynomial

/-! ## Divisibility -/

section
variable {σ : Type} {p q : Polynomial σ} {d : Int64}

/-- What divides the content is what divides every coefficient. -/
theorem dvd_content_iff : d.toInt.natAbs ∣ p.content ↔
    ∀ t ∈ p.terms, d.toInt ∣ t.coefficient.toInt := by
  constructor
  · intro h t ht
    exact Int.natAbs_dvd_natAbs.1 (Nat.dvd_trans h (content_dvd ht))
  · intro h
    exact dvd_content fun t ht => Int.natAbs_dvd_natAbs.2 (h t ht)

theorem isSome_divExact?_iff : (p.divExact? d).isSome ↔
    d ≠ 0 ∧ ∀ t ∈ p.terms, d.toInt ∣ t.coefficient.toInt := by
  rw [← dvd_content_iff, Nat.dvd_iff_mod_eq_zero, divExact?]
  split
  · rename_i h
    simp only [Option.isSome_none, Bool.false_eq_true, false_iff]
    rintro ⟨hd, hmod⟩
    exact h.elim hd (absurd hmod)
  · rename_i h
    rw [not_or, Decidable.not_not] at h
    simpa using h

theorem powers_of_divExact? (h : p.divExact? d = some q) :
    q.terms.map (·.powers) = p.terms.map (·.powers) := by
  obtain ⟨rfl, -⟩ := eq_of_divExact? h
  rw [List.map_map]
  rfl

/-! ## Multiples -/

/-- A multiple keeps all terms if none of them becomes zero. -/
theorem scale_eq_map (h : ∀ t ∈ p.terms, t.coefficient * d ≠ 0) :
    p.scale d = ⟨p.terms.map fun t => ⟨t.powers, t.coefficient * d⟩⟩ := by
  rw [scale, ← List.filterMap_eq_map']
  exact congrArg mk (List.filterMap_congr fun t ht => if_neg (h t ht))

variable [Ord σ]

/-- Exact division undoes a multiplication in which no coefficient overflows. -/
theorem InOrder.divExact?_scale (hp : InOrder p.terms) (hd : d ≠ 0)
    (h : ∀ t ∈ p.terms, fits64 (t.coefficient.toInt * d.toInt)) :
    (p.scale d).divExact? d = some p := by
  have hscale := scale_eq_map fun t ht => int64_mul_ne_zero (h t ht) (hp.nonzero t ht) hd
  have hdvd : ∀ t ∈ (p.scale d).terms, d.toInt ∣ t.coefficient.toInt := by
    intro u hu
    rw [hscale] at hu
    obtain ⟨t, ht, rfl⟩ := List.mem_map.1 hu
    exact ⟨t.coefficient.toInt, by rw [toInt_mul_of_fits64 (h t ht), Int.mul_comm]⟩
  obtain ⟨q, hq⟩ := exists_divExact? hd hdvd
  have hterm : ∀ t ∈ p.terms, (⟨t.powers, t.coefficient * d / d⟩ : Monomial σ) = t := by
    intro t ht
    rw [int64_mul_div_cancel (h t ht) hd]
  have hterms : p.terms.map (fun t => (⟨t.powers, t.coefficient * d / d⟩ : Monomial σ)) = p.terms :=
    (List.map_congr_left hterm).trans (List.map_id _)
  rw [hq, (eq_of_divExact? hq).1, hscale, List.map_map]
  exact congrArg (some ∘ Polynomial.mk) hterms

end

/-! ## Division -/

variable {p q : Poly} {d : Int64}

theorem div_const : BinOp.div.apply p (.const d) =
    (p.divExact? d).getD (.ofSymbol (.binary .div p (.const d))) := by
  rw [BinOp.apply, BinOp.result?, constant?_const, Option.bind_some]

/-- **Exact division is exact and complete.**  There is a quotient exactly where the divisor is not
    zero and divides every coefficient; it has the power products of the dividend, and its multiple
    is the dividend again, also where coefficients wrap around.  A multiple has the quotient it was
    made from unless a coefficient overflows.  Division by a constant gives the quotient if there is
    one, and an operation that stays symbolic otherwise. -/
theorem Built.divExact?_sound_complete (hp : p.Built) (d : Int64) :
    ((p.divExact? d).isSome ↔ d ≠ 0 ∧ ∀ t ∈ p.terms, d.toInt ∣ t.coefficient.toInt) ∧
    (∀ q, p.divExact? d = some q →
      q.scale d = p ∧ q.terms.map (·.powers) = p.terms.map (·.powers)) ∧
    (d ≠ 0 → (∀ t ∈ p.terms, fits64 (t.coefficient.toInt * d.toInt)) →
      (p.scale d).divExact? d = some p) ∧
    (∀ q, p.divExact? d = some q → BinOp.div.apply p (.const d) = q) ∧
    (p.divExact? d = none →
      (BinOp.div.apply p (.const d)).terms = [⟨.ofSymbol (.binary .div p (.const d)), 1⟩]) := by
  have hin : InOrder p.terms := hp.canonical.inOrder
  refine ⟨isSome_divExact?_iff, fun q hq => ⟨scale_of_divExact? hin hq, powers_of_divExact? hq⟩,
    hin.divExact?_scale, fun q hq => ?_, fun hnone => ?_⟩
  · rw [div_const, hq, Option.getD_some]
  · rw [div_const, hnone, Option.getD_none]
    rfl

/-- The only quotient of 64-bit numbers that overflows: it is the dividend. -/
example : ((const Int64.minValue : Poly).divExact? (-1)).bind constant? = some Int64.minValue := by
  decide

/-- Half of `-2 ^ 62 * n + 6` and its double, whose first coefficient is the least one there is; no
    coefficient but the first is divided by 4. -/
theorem divExact?_sound_complete_halves :
    let p : Poly := const (-4611686018427387904) * named "n" + const 6
    p.Built ∧ p.divExact? 4 = none ∧
      (BinOp.div.apply p (.const 4)).terms = [⟨.ofSymbol (.binary .div p (.const 4)), 1⟩] ∧
      (p.scale 2).divExact? 2 = some p ∧
      ∃ q, p.divExact? 2 = some q ∧ q.scale 2 = p ∧ BinOp.div.apply p (.const 2) = q := by
  intro p
  have hp : p.Built := .add (.mul .const .ofSymbol) .const
  obtain ⟨-, -, -, -, hsymbolic⟩ := hp.divExact?_sound_complete 4
  obtain ⟨hiff, hscale, hmultiple, hdiv, -⟩ := hp.divExact?_sound_complete 2
  have hnone : p.divExact? 4 = none := by decide
  have hfits : ∀ t ∈ p.terms, fits64 (t.coefficient.toInt * (2 : Int64).toInt) := by decide
  obtain ⟨q, hq⟩ := Option.isSome_iff_exists.1 (hiff.2 (by decide))
  exact ⟨hp, hnone, hsymbolic hnone, hmultiple (by decide) hfits, q, hq, (hscale q hq).1, hdiv q hq⟩

end Polynomial

end QuantumLowering
