/-
  Comparisons of sizes.

  * `Polynomial.EvalLaws`: values under an assignment to the symbols turn the operations into those
    of 64-bit numbers, unless an exponent leaves its 32 bits (`Polynomial.eval_exponents_wrapped`).
  * `Quantity.surelyDiffers_iff`: two quantities surely differ if one is the other plus a constant
    that is not zero.
  * `Quantity.NeverEqual`: the values differ under every assignment.
  * `Operation.neverEqual_of_error`: targets and products are refused only for sizes that are
    never equal.

  The elements of a product are checked again when the product is lowered; that check asks for the
  same polynomial and so refuses more.
-/
import QuantumLowering.Proofs.ProductSizes

namespace QuantumLowering

/-! ## Values -/

namespace Polynomial

section
variable {σ : Type} [Ord σ] {p q : Polynomial σ} {ρ : σ → Int64} {k : Int64}

omit [Ord σ] in
@[simp] theorem eval_scale : (p.scale k).eval ρ = k * p.eval ρ := by
  simp only [eval, evalTerms_eq_weigh, weigh_scale]

@[simp] theorem eval_neg : (-p).eval ρ = -p.eval ρ := by
  simp only [eval, evalTerms_eq_weigh, weigh_neg]

variable [Std.LawfulEqOrd σ]

/-- Values turn the operations on two polynomials into those of 64-bit numbers, products and powers
    as long as the exponents stay within 32 bits. -/
structure EvalLaws (ρ : σ → Int64) (p q : Polynomial σ) : Prop where
  add : (p + q).eval ρ = p.eval ρ + q.eval ρ
  sub : (p - q).eval ρ = p.eval ρ - q.eval ρ
  mul : p.mulFits q → (p * q).eval ρ = p.eval ρ * q.eval ρ
  neg : (-p).eval ρ = -p.eval ρ
  scale : ∀ k, (p.scale k).eval ρ = k * p.eval ρ
  pow : ∀ e, p.powFits e → (p.pow e).eval ρ = p.eval ρ ^ e

theorem evalLaws : EvalLaws ρ p q :=
  ⟨eval_add, eval_sub, eval_mul, eval_neg, fun _ => eval_scale, fun _ => eval_pow⟩

end

end Polynomial

/-! ## Quantities that surely differ -/

namespace Quantity

variable {a b c : Quantity}

/-- The values differ under every assignment to the symbols. -/
def NeverEqual (a b : Quantity) : Prop := ∀ ρ, a.eval ρ ≠ b.eval ρ

theorem surelyDiffers_iff_constant? :
    a.surelyDiffers b ↔ ∃ d, d ≠ 0 ∧ (a.poly - b.poly).constant? = some d := by
  have hconstant : (a - b).constant? = (a.poly - b.poly).constant? := rfl
  rw [surelyDiffers, hconstant]
  cases (a.poly - b.poly).constant? <;> simp

theorem neverEqual_of_surelyDiffers (h : a.surelyDiffers b) : NeverEqual a b := by
  intro ρ heq
  obtain ⟨d, hd, hdiff⟩ := surelyDiffers_iff_constant?.1 h
  have hzero : d = a.eval ρ - b.eval ρ := by
    rw [← Polynomial.eval_of_constant? hdiff (ρ := ρ), Polynomial.eval_sub]
    rfl
  exact hd (by rw [hzero, heq, Int64.sub_self])

section
variable (ha : a.poly.Built) (hb : b.poly.Built)
include ha hb

/-- In terms of weights, of which values are an instance. -/
theorem surelyDiffers_iff : a.surelyDiffers b ↔ ∃ d : Int64, d ≠ 0 ∧
    ∀ w, Polynomial.weigh w a.poly.terms = Polynomial.weigh w b.poly.terms + d * w .one := by
  simp only [surelyDiffers_iff_constant?, ha.canonical.inOrder.constant?_sub_iff
    hb.canonical.inOrder]

theorem surelyDiffers_comm : a.surelyDiffers b = b.surelyDiffers a := by
  rw [Bool.eq_iff_iff, surelyDiffers_iff ha hb, surelyDiffers_iff hb ha]
  constructor
  all_goals
    rintro ⟨d, hd, h⟩
    exact ⟨-d, by grind, fun w => by rw [h w]; grind⟩

theorem surelyDiffers_add_right (hc : c.poly.Built) :
    (a + c).surelyDiffers (b + c) = a.surelyDiffers b := by
  have hac : (a + c).poly.Built := .add ha hc
  have hbc : (b + c).poly.Built := .add hb hc
  rw [Bool.eq_iff_iff, surelyDiffers_iff hac hbc, surelyDiffers_iff ha hb]
  simp only [weigh_add]
  refine exists_congr fun d => and_congr_right fun _ => forall_congr' fun w => ?_
  constructor <;> intro h <;> grind

end

end Quantity

/-! ## Checks -/

namespace Operation

open Quantity (NeverEqual)

variable {op : Operation} {target : Qubits} {es : List Operation} {l : Option Location}
  {e : FormationError}

/-- A target is refused for its size alone. -/
theorem checkTarget_eq_error (h : op.checkTarget target l = .error e) :
    e = op.targetMismatch target (l.or op.location) ∧ op.isDetermined ∧
      NeverEqual op.size target.size := by
  unfold checkTarget at h
  split at h
  · rename_i hdiff
    simp only [Bool.and_eq_true] at hdiff
    exact ⟨(Except.error.inj h).symm, hdiff.1, Quantity.neverEqual_of_surelyDiffers hdiff.2⟩
  · simp at h

/-- A product that is not empty is refused for the sizes of two of its elements. -/
theorem ofSequence_eq_error (h : ofSequence es = .error e) (hne : es ≠ []) :
    ∃ a ∈ es, ∃ b ∈ es, e = elementMismatch a b ∧ a.isDetermined ∧ b.isDetermined ∧
      NeverEqual a.size b.size := by
  unfold ofSequence at h
  rw [if_neg (by simpa using hne)] at h
  split at h
  · simp at h
  · rename_i b hb
    split at h
    · rename_i a ha
      have hdiff := List.find?_some ha
      simp only [Bool.and_eq_true] at hdiff
      exact ⟨a, List.mem_of_find?_eq_some ha, b, List.mem_of_find?_eq_some hb,
        (Except.error.inj h).symm, hdiff.1, List.find?_some hb,
        Quantity.neverEqual_of_surelyDiffers hdiff.2⟩
    · simp at h

end Operation

end QuantumLowering
