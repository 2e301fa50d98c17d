/-
  Solving linear equations.

  * `Polynomial.scale_of_divExact?`: an exact quotient times the divisor is the dividend.
  * `Polynomial.linear_eq`, `subst_linear`: the terms of `c + k * x`, and what is made of them with
    something in place of `x`.
  * `Quantity.IsLinear`: quantities of this form.
  * `Quantity.linearIn?_eq_some_iff`: the form is recognised wherever it is there.
  * `Quantity.exists_solve?_iff`: which equations are solved.
  * `Quantity.solve?_sound_complete`: these, by the quotient of what is left of the other side; put
    in place of the unknown it makes both sides equal if it is exact.
-/
import QuantumLowering.Proofs.Constants
import QuantumLowering.Proofs.Numbers
import QuantumLowering.Proofs.RingLaws
import QuantumLowering.Proofs.Solving
import QuantumLowering.Proofs.Unknowns

namespace QuantumLowering

namespace Polynomial

/-! ## Exact quotients -/

section
variable {σ : Type} [Ord σ] {p q : Polynomial σ} {d : Int64}

/-- An exact quotient times the divisor is the dividend. -/
theorem scale_of_divExact? (hp : InOrder p.terms) (h : p.divExact? d = some q) : q.scale d = p := by
  obtain ⟨rfl, hdvd⟩ := eq_of_divExact? h
  have hterm : ∀ t ∈ p.terms, (if t.coefficient / d * d = 0 then none
      else some (⟨t.powers, t.coefficient / d * d⟩ : Monomial σ)) = some t := by
    intro t ht
    rw [hdvd t ht, if_neg (hp.nonzero t ht)]
  simp only [scale, List.filterMap_map]
  exact congrArg mk ((List.filterMap_congr hterm).trans List.filterMap_some)

variable [Std.TransOrd σ] [Std.LawfulEqOrd σ]

theorem InOrder.const_add_sub (hp : InOrder p.terms) {c : Int64} : const c + (p - const c) = p := by
  refine ext (Canonical.const.inOrder.addTerms (hp.sub Canonical.const.inOrder)) hp fun w => ?_
  rw [weigh_add, weigh_sub]
  grind

end

/-! ## Linear polynomials -/

variable {x : String} {c k : Int64}

theorem const_mul_named (hk : k ≠ 0) :
    (const k * named x : Poly) = ⟨[⟨⟨[(.named x, 1)]⟩, k⟩]⟩ := by
  have hcanonical : (named x).Canonical := .ofSymbol
  rw [hcanonical.const_mul]
  simp [scale, named, ofSymbol, PowerProduct.ofSymbol, hk]

/-- The constant comes before the multiple of the unknown, if it is there. -/
theorem linear_eq (hk : k ≠ 0) :
    (const c + const k * named x : Poly) =
      ⟨if c = 0 then [⟨⟨[(.named x, 1)]⟩, k⟩] else [⟨.one, c⟩, ⟨⟨[(.named x, 1)]⟩, k⟩]⟩ := by
  have hlt : compare (PowerProduct.one : PowerProduct Symbol) ⟨[(.named x, 1)]⟩ = .lt := rfl
  rw [const_mul_named hk]
  refine congrArg mk ?_
  unfold const
  split
  · rfl
  · simp only [addTerms, place, hlt]

/-- With `v` in place of the unknown, its multiple is the multiple of `v`. -/
theorem substTerms_multiple {v : Poly} (hv : v.Canonical) :
    Symbol.substTerms x v [⟨⟨[(.named x, 1)]⟩, k⟩] = const k * v := by
  have hpow : v.pow 1 = const 1 * v := by simp [pow, powLoop]
  have hone : v.pow 1 = v := by rw [hpow, hv.const_mul, hv.inOrder.scale_one]
  have hexponent : v.pow (1 : UInt32).toNat = v := hone
  have hzero : const k * v + zero = const k * v := (InOrder.mul (p := const k)).add_zero
  simp only [Symbol.substTerms, Symbol.substFactors, Symbol.subst, if_pos, hexponent, hzero]

theorem subst_linear {v : Poly} (hk : k ≠ 0) (hv : v.Canonical) :
    (const c + const k * named x : Poly).subst x v = const c + const k * v := by
  rw [linear_eq hk, subst, Symbol.substPoly]
  split
  · rename_i hc
    rw [substTerms_multiple hv, hc]
    rfl
  · rw [Symbol.substTerms.eq_def]
    simp only [PowerProduct.one, Symbol.substFactors, substTerms_multiple hv]

end Polynomial

namespace Quantity

variable {a rhs v : Quantity} {x : String} {c k : Int64}

/-- The quantity is `c + k * x`, where `k` is not zero. -/
def IsLinear (a : Quantity) (x : String) (c k : Int64) : Prop :=
  k ≠ 0 ∧ a.poly = .const c + .const k * .named x

theorem linearIn?_eq_some_iff (ha : a.poly.Canonical) :
    a.linearIn? x = some (c, k) ↔ a.IsLinear x c k := by
  constructor
  · intro h
    have hnonzero := ha.inOrder.nonzero
    have heq : a.poly = ⟨a.poly.terms⟩ := rfl
    rcases linearIn?_eq_some h with ⟨rfl, hterms⟩ | hterms
    · have hk : k ≠ 0 := by simpa [hterms] using hnonzero
      exact ⟨hk, by rw [heq, hterms, Polynomial.linear_eq hk, if_pos rfl]⟩
    · obtain ⟨hc, hk⟩ : c ≠ 0 ∧ k ≠ 0 := by simpa [hterms] using hnonzero
      exact ⟨hk, by rw [heq, hterms, Polynomial.linear_eq hk, if_neg hc]⟩
  · rintro ⟨hk, hlinear⟩
    rw [Polynomial.linear_eq hk] at hlinear
    by_cases hc : c = 0
    · simp [linearIn?, linearIn?.slope?, PowerProduct.linearSymbol?, hlinear, hc]
    · simp [linearIn?, linearIn?.slope?, PowerProduct.linearSymbol?, hlinear, hc,
        PowerProduct.isOne, PowerProduct.one]

/-! ## Solutions -/

/-- What is left of the other side must not be a constant that the coefficient does not divide. -/
theorem exists_solve?_iff (ha : a.poly.Canonical) :
    (∃ v, a.solve? rhs x = some v) ↔ ∃ c k, a.IsLinear x c k ∧
      ∀ r, (rhs - const c).constant? = some r → k.toInt ∣ r.toInt := by
  simp only [← linearIn?_eq_some_iff ha, ← int64_mod_eq_zero_iff]
  constructor
  · rintro ⟨v, hv⟩
    obtain ⟨c, k, hlin, -, hmod⟩ := solve?_eq_some hv
    exact ⟨c, k, hlin, hmod⟩
  · rintro ⟨c, k, hlin, hmod⟩
    refine ⟨(rhs - const c) / const k, ?_⟩
    simp only [solve?, hlin]
    split
    · rename_i r hr
      exact if_pos (hmod r hr)
    · rfl

/-- The exact quotient of what is left of the other side makes both sides equal. -/
theorem IsLinear.subst_div (h : a.IsLinear x c k) (hrhs : rhs.poly.Canonical)
    (hdvd : ∀ t ∈ (rhs - const c).poly.terms, k.toInt ∣ t.coefficient.toInt) :
    (a.subst x ((rhs - const c) / const k)).poly = rhs.poly := by
  obtain ⟨q, hq⟩ := Polynomial.exists_divExact? h.1 hdvd
  have hrest : (rhs - const c).poly.Canonical := hrhs.sub .const
  have hdiv : ((rhs - const c) / const k).poly = q := by
    rw [poly_div_const, hq, Option.getD_some]
  have hcanonical : q.Canonical := hrest.divExact? hq
  show a.poly.subst x _ = rhs.poly
  rw [h.2, hdiv, Polynomial.subst_linear h.1 hcanonical, hcanonical.const_mul,
    Polynomial.scale_of_divExact? hrest.inOrder hq]
  exact hrhs.inOrder.const_add_sub

/-- **Linear equations are solved.**  Exactly those are where one side is `c + k * x` and what is
    left of the other side without `c` is not a constant that `k` does not divide.  The solution is
    the quotient of what is left by `k`; if `k` divides all its coefficients, as it does for a
    constant, then with the solution in place of `x` both sides are the same.  The solution mentions
    `x` only if the other side does. -/
theorem solve?_sound_complete (ha : a.poly.Built) (hrhs : rhs.poly.Built) :
    ((∃ v, a.solve? rhs x = some v) ↔ ∃ c k, a.IsLinear x c k ∧
      ∀ r, (rhs - const c).constant? = some r → k.toInt ∣ r.toInt) ∧
    ∀ v, a.solve? rhs x = some v → ∀ c k, a.IsLinear x c k →
      v = (rhs - const c) / const k ∧
      ((∀ t ∈ (rhs - const c).poly.terms, k.toInt ∣ t.coefficient.toInt) →
        (a.subst x v).poly = rhs.poly) ∧
      (rhs.isConstant → (a.subst x v).poly = rhs.poly) ∧
      (rhs.mentions x = false → v.mentions x = false) := by
  refine ⟨exists_solve?_iff ha.canonical, fun v hv c k hlinear => ?_⟩
  have hlin := (linearIn?_eq_some_iff ha.canonical).2 hlinear
  obtain ⟨c', k', hlin', rfl, hmod⟩ := solve?_eq_some hv
  obtain ⟨rfl, rfl⟩ : c' = c ∧ k' = k := by simpa [hlin] using hlin'.symm
  refine ⟨rfl, hlinear.subst_div hrhs.canonical, fun hconstant => ?_, fun hx => ?_⟩
  · obtain ⟨r, hr⟩ := Option.isSome_iff_exists.1 hconstant
    have hrest : (rhs - const c').constant? = some (r - c') := constant?_sub hr constant?_const
    exact hlinear.subst_div hrhs.canonical
      (Polynomial.dvd_of_constant? hrest (int64_mod_eq_zero_iff.1 (hmod _ hrest)))
  · rw [Bool.eq_false_iff] at hx ⊢
    exact fun hmentions => hx (mentions_solve? hv hmentions)

example : ((const (-1) * named "n").solve? (const Int64.minValue) "n").bind constant? =
    some Int64.minValue := by decide

/-- The size of an odd number of qubits. -/
def oddSize : Quantity := const 1 + const 2 * named "n"

/-- A size that is odd. -/
def oddTarget : Quantity := const 4 * named "m" + const 7

/-- An odd size is solved for an odd target. -/
theorem solve?_sound_complete_odd :
    oddSize.poly.Built ∧ oddTarget.poly.Built ∧ oddSize.IsLinear "n" 1 2 ∧
      ∃ v, oddSize.solve? oddTarget "n" = some v ∧
        (oddSize.subst "n" v).poly = oddTarget.poly ∧ v.mentions "n" = false := by
  have hsize : oddSize.poly.Built :=
    .add (p := .const 1) .const (.mul (p := .const 2) .const .ofSymbol)
  have htarget : oddTarget.poly.Built :=
    .add (q := .const 7) (.mul (p := .const 4) .const .ofSymbol) .const
  have hlinear : oddSize.IsLinear "n" 1 2 := ⟨by decide, rfl⟩
  have heven : ∀ t ∈ (oddTarget - const 1).poly.terms, (2 : Int64).toInt ∣ t.coefficient.toInt := by
    have hall : ((oddTarget - const 1).poly.terms.all fun t =>
        t.coefficient.toInt % (2 : Int64).toInt == 0) = true := by decide
    exact fun t ht => Int.dvd_of_emod_eq_zero (by simpa using List.all_eq_true.1 hall t ht)
  have hnone : (oddTarget - const 1).constant? = none := by decide
  obtain ⟨hiff, hsolved⟩ := solve?_sound_complete (x := "n") hsize htarget
  obtain ⟨v, hv⟩ := hiff.2 ⟨1, 2, hlinear, by simp [hnone]⟩
  obtain ⟨-, hsubst, -, hmentions⟩ := hsolved v hv 1 2 hlinear
  exact ⟨hsize, htarget, hlinear, v, hv, hsubst heven, hmentions (by decide)⟩

end Quantity

end QuantumLowering
