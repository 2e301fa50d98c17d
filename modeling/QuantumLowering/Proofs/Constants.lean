/-
  Quantities without unknowns.

  * `Polynomial.constant?_divExact?`, `of_divExact?`: a constant is divided exactly if and only
    if there is no remainder.
  * `Quantity.constant?_add`, `constant?_sub`, `constant?_mul`, `constant?_div`: the operators
    on constants.
  * `Quantity.eq_of_not_surelyDiffers`, `beq_of_constant?`: both comparisons are exact on constants.
  * `Quantity.constant?_copySpan`: the span of a part is constant wherever the part starts.
-/
import QuantumLowering.Proofs.Cancellation
import QuantumLowering.Proofs.Numbers

namespace QuantumLowering

namespace Polynomial

variable {σ : Type} {p q : Polynomial σ} {c d : Int64}

theorem eq_one_of_constant? (h : p.constant? = some 1) : p = const 1 := by
  obtain ⟨ts⟩ := p
  rcases constant?_eq_some_iff.1 h with ⟨-, hzero⟩ | hone
  · exact absurd hzero (by decide)
  · exact congrArg _ hone

/-- One term without symbols, unless it is zero. -/
theorem constant?_single (c : Int64) :
    (⟨if c = 0 then [] else [⟨.one, c⟩]⟩ : Polynomial σ).constant? = some c := by
  split <;> simp_all [constant?_eq_some_iff]

theorem content_of_constant? (hp : p.constant? = some c) : p.content = c.toInt.natAbs := by
  rcases constant?_eq_some_iff.1 hp with ⟨hnil, rfl⟩ | hone
  · rw [content, hnil]
    rfl
  · rw [content, hone]
    simp

/-- The coefficients of a constant are that constant. -/
theorem dvd_of_constant? (hp : p.constant? = some c) (h : d.toInt ∣ c.toInt) :
    ∀ t ∈ p.terms, d.toInt ∣ t.coefficient.toInt := by
  intro t ht
  rcases constant?_eq_some_iff.1 hp with ⟨hnil, -⟩ | hone
  · rw [hnil] at ht
    exact absurd ht List.not_mem_nil
  · rw [hone, List.mem_singleton] at ht
    rwa [ht]

/-- An exact quotient of a constant. -/
theorem of_divExact? (hp : p.constant? = some c) (h : p.divExact? d = some q) :
    d ≠ 0 ∧ c % d = 0 ∧ q.constant? = some (c / d) := by
  unfold divExact? at h
  split at h
  · simp at h
  rename_i hd
  obtain rfl := Option.some.inj h
  simp only [content_of_constant? hp, not_or, Decidable.not_not] at hd
  refine ⟨hd.1, ?_, ?_⟩
  · exact int64_mod_eq_zero_iff.2 (Int.natAbs_dvd_natAbs.1 (Nat.dvd_of_mod_eq_zero hd.2))
  · rw [constant?_eq_some_iff] at hp ⊢
    rcases hp with ⟨hp, rfl⟩ | hp <;> simp [hp]

theorem constant?_divExact? (hp : p.constant? = some c) (hd : d ≠ 0) (h : c % d = 0) :
    ∃ q, p.divExact? d = some q ∧ q.constant? = some (c / d) := by
  obtain ⟨q, hq⟩ := exists_divExact? hd (dvd_of_constant? hp (int64_mod_eq_zero_iff.1 h))
  exact ⟨q, hq, (of_divExact? hp hq).2.2⟩

variable [Ord σ]

theorem constant?_add (hp : p.constant? = some c) (hq : q.constant? = some d) :
    (p + q).constant? = some (c + d) := by
  have hsum : (p + q) = ⟨addTerms p.terms q.terms⟩ := rfl
  have heq : compare (PowerProduct.one : PowerProduct σ) PowerProduct.one = .eq := rfl
  rw [constant?_eq_some_iff] at hp hq
  rcases hp with ⟨hp, rfl⟩ | hp <;> rcases hq with ⟨hq, rfl⟩ | hq <;>
    simp only [hsum, hp, hq, addTerms, place, heq, Int64.zero_add, Int64.add_zero]
  · simp [constant?_eq_some_iff]
  · simp [constant?_eq_some_iff]
  · simp [constant?_eq_some_iff]
  · exact constant?_single (c + d)

theorem constant?_sub (hp : p.constant? = some c) (hq : q.constant? = some d) :
    (p - q).constant? = some (c - d) := by
  rw [Int64.sub_eq_add_neg]
  refine constant?_add (q := ⟨q.terms.map fun t => ⟨t.powers, -t.coefficient⟩⟩) hp ?_
  rw [constant?_eq_some_iff] at hq ⊢
  rcases hq with ⟨hq, rfl⟩ | hq <;> simp [hq]

theorem constant?_mul (hp : p.constant? = some c) (hq : q.constant? = some d) :
    (p * q).constant? = some (c * d) := by
  have hprod : p * q =
      ⟨total (p.terms.foldl (fun sums s => carry (sumTerms (q.terms.map s.mul)) sums) [])⟩ := rfl
  rw [constant?_eq_some_iff] at hp hq
  rcases hp with ⟨hp, rfl⟩ | hp <;> rcases hq with ⟨hq, rfl⟩ | hq
  · simp [hprod, hp, total, constant?_eq_some_iff]
  · simp [hprod, hp, total, constant?_eq_some_iff]
  · simp [hprod, hp, hq, total, carry, sumTerms, addTerms, constant?_eq_some_iff]
  · have hmul : (⟨.one, c⟩ : Monomial σ).mul ⟨.one, d⟩ = ⟨.one, c * d⟩ := by
      simp only [Monomial.mul, Monomial.of, PowerProduct.mul, PowerProduct.one, List.foldr_nil]
      split <;> simp_all [PowerProduct.one]
    rw [← constant?_single (σ := σ) (c * d)]
    simp only [hprod, hp, hq, hmul, List.foldl_cons, List.foldl_nil, List.map_cons, List.map_nil,
      sumTerms, carry, total, addTerms, Option.getD_some]

end Polynomial

namespace Quantity

variable {a b : Quantity} {c d : Int64}

theorem constant?_add (ha : a.constant? = some c) (hb : b.constant? = some d) :
    (a + b).constant? = some (c + d) := Polynomial.constant?_add ha hb

theorem constant?_sub (ha : a.constant? = some c) (hb : b.constant? = some d) :
    (a - b).constant? = some (c - d) := Polynomial.constant?_sub ha hb

theorem constant?_mul (ha : a.constant? = some c) (hb : b.constant? = some d) :
    (a * b).constant? = some (c * d) := Polynomial.constant?_mul ha hb

theorem constant?_div (ha : a.constant? = some c) (hd : d ≠ 0) (h : c % d = 0) :
    (a / const d).constant? = some (c / d) := by
  obtain ⟨q, hq, hc⟩ := Polynomial.constant?_divExact? ha hd h
  rw [constant?, poly_div_const, hq, Option.getD_some, hc]

theorem of_divExact? {q : Quantity} (ha : a.constant? = some c) (hb : b.constant? = some d)
    (h : a.divExact? b = some q) : d ≠ 0 ∧ c % d = 0 ∧ q.constant? = some (c / d) := by
  rw [divExact?, hb, Option.bind_some, Option.map_eq_some_iff] at h
  obtain ⟨p, hp, rfl⟩ := h
  exact Polynomial.of_divExact? ha hp

theorem isConstant_of_constant? (ha : a.constant? = some c) : a.isConstant := by
  rw [isConstant, Polynomial.isConstant, show a.poly.constant? = some c from ha]
  rfl

theorem not_mentions_of_constant? {x : String} (ha : a.constant? = some c) : ¬ a.mentions x := by
  intro h
  obtain ⟨t, ht, hx⟩ := Polynomial.mentions_iff.1 h
  rcases Polynomial.constant?_eq_some_iff.1 ha with ⟨hnil, -⟩ | hone
  · simp [hnil] at ht
  · rw [hone, List.mem_singleton] at ht
    simp [ht, PowerProduct.mentions, PowerProduct.one, Symbol.factorsMention] at hx

/-- Constants that do not surely differ are equal. -/
theorem eq_of_not_surelyDiffers (ha : a.constant? = some c) (hb : b.constant? = some d)
    (h : a.surelyDiffers b = false) : c = d := by
  rw [surelyDiffers, constant?_sub ha hb] at h
  have hzero : c - d = 0 := by simpa using h
  rwa [Int64.sub_eq_iff_eq_add, Int64.zero_add] at hzero

/-- A constant other than zero is written in one way only. -/
theorem beq_of_constant? (ha : a.constant? = some c) (hb : b.constant? = some c) (hc : c ≠ 0) :
    a == b := by
  have hterms : ∀ {a : Quantity}, a.constant? = some c → a.poly.terms = [⟨.one, c⟩] := fun ha =>
    (Polynomial.constant?_eq_some_iff.1 ha).resolve_left fun h => hc h.2
  exact beq_iff.2 (congrArg Polynomial.mk ((hterms ha).trans (hterms hb).symm))

/-- A run of constant size from a constant start spans its size. -/
theorem constant?_span (ha : a.constant? = some c) (hb : b.constant? = some d) :
    (a + b - a).constant? = some d := by
  rw [constant?_sub (constant?_add ha hb) ha, Int64.add_comm, Int64.add_sub_cancel]

/-- The part of one copy spans what it was asked to, wherever it starts. -/
theorem constant?_copySpan {x : String} (ha : a.constant? = some c) :
    (a * named x + a - a * named x).constant? = some c := by
  rw [constant?, Polynomial.constant?, terms_copySpan (not_mentions_of_constant? ha)]
  exact ha

end Quantity

end QuantumLowering
