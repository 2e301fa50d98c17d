/-
  The ring of canonical polynomials.

  * `CanonicalPolynomial σ`: the canonical polynomials over an alphabet, a commutative ring.
  * `CanonicalPolynomial.coe_pow`: repeated squaring computes the powers of this ring.
  * `Polynomial.Built.powerLaws`: these are repeated products, and their exponents add up and
    multiply.
  * `PowerProduct.lift`: a map from the symbols to a commutative monoid, extended to power products;
    it turns products whose exponents fit into products.
-/
import Mathlib.Algebra.BigOperators.Group.List.Basic
import Mathlib.Algebra.Ring.Defs
import QuantumLowering.Proofs.Exponents
import QuantumLowering.Proofs.RingLaws

namespace QuantumLowering

variable {σ : Type} [Ord σ]

/-- The polynomials that the operations compute with. -/
abbrev CanonicalPolynomial (σ : Type) [Ord σ] := { p : Polynomial σ // p.Canonical }

/-! ## The ring -/

namespace CanonicalPolynomial

instance : Zero (CanonicalPolynomial σ) := ⟨⟨.zero, .zero⟩⟩
instance : One (CanonicalPolynomial σ) := ⟨⟨.const 1, .const⟩⟩
instance : Neg (CanonicalPolynomial σ) := ⟨fun p => ⟨-p.1, p.2.scale⟩⟩

@[simp] theorem coe_one : ((1 : CanonicalPolynomial σ) : Polynomial σ) = .const 1 := rfl

variable [Std.TransOrd σ] [Std.LawfulEqOrd σ]

instance : Add (CanonicalPolynomial σ) := ⟨fun p q => ⟨p.1 + q.1, p.2.add q.2⟩⟩
instance : Sub (CanonicalPolynomial σ) := ⟨fun p q => ⟨p.1 - q.1, p.2.sub q.2⟩⟩
instance : Mul (CanonicalPolynomial σ) := ⟨fun p q => ⟨p.1 * q.1, p.2.mul⟩⟩

variable {p q : CanonicalPolynomial σ}

@[simp] theorem coe_mul : (↑(p * q) : Polynomial σ) = p * q := rfl

instance : CommRing (CanonicalPolynomial σ) where
  nsmul := nsmulRec
  zsmul := zsmulRec
  add_assoc p q r := Subtype.ext (p.2.inOrder.add_assoc q.2.inOrder r.2.inOrder)
  add_comm p q := Subtype.ext (p.2.inOrder.add_comm q.2.inOrder)
  zero_add p := Subtype.ext (Polynomial.RingLaws.of_canonical p.2 p.2 p.2).zero_add
  add_zero p := Subtype.ext p.2.inOrder.add_zero
  neg_add_cancel p := Subtype.ext <| by
    have hneg : (-p.1).Canonical := p.2.scale
    show -p.1 + p.1 = .zero
    rw [hneg.inOrder.add_comm p.2.inOrder, ← p.2.inOrder.sub_eq_add_neg p.2.inOrder,
      p.2.inOrder.sub_self]
  sub_eq_add_neg p q := Subtype.ext (p.2.inOrder.sub_eq_add_neg q.2.inOrder)
  left_distrib _ _ _ := Subtype.ext Polynomial.mul_add
  right_distrib _ _ _ := Subtype.ext Polynomial.add_mul
  zero_mul _ := rfl
  mul_zero p := Subtype.ext (p.2.mul_comm .zero)
  mul_assoc p _ _ := Subtype.ext p.2.mul_assoc
  mul_comm p q := Subtype.ext (p.2.mul_comm q.2)
  one_mul p := Subtype.ext (Polynomial.RingLaws.of_canonical p.2 p.2 p.2).one_mul
  mul_one p := Subtype.ext (Polynomial.RingLaws.of_canonical p.2 p.2 p.2).mul_one

/-! ## Powers -/

/-- Squaring: the loop computes the product of the accumulator and the power. -/
theorem coe_mul_pow {acc base : CanonicalPolynomial σ} {e : Nat} :
    (↑(acc * base ^ e) : Polynomial σ) = Polynomial.powLoop acc base e := by
  induction e using Nat.strong_induction_on generalizing acc base with
  | _ e ih =>
    by_cases he : e = 0
    · rw [Polynomial.powLoop, if_pos he, he, pow_zero, mul_one]
    have hstep : (if e % 2 = 1 then (acc : Polynomial σ) * base else acc) =
        ↑(acc * base ^ (e % 2)) := by
      rcases Nat.mod_two_eq_zero_or_one e with h | h <;> simp [h]
    have hpow : base ^ e = base ^ (e % 2) * (base * base) ^ (e / 2) := by
      rw [← pow_two, ← pow_mul, ← pow_add, Nat.mod_add_div]
    rw [Polynomial.powLoop, if_neg he]
    dsimp only
    rw [hstep]
    split
    · rename_i hdone
      rw [hpow, hdone, pow_zero, mul_one]
    · rw [← coe_mul, ← ih (e / 2) (by omega), hpow, mul_assoc]

@[simp] theorem coe_pow {e : Nat} : (↑(p ^ e) : Polynomial σ) = (p : Polynomial σ).pow e := by
  rw [Polynomial.pow, ← coe_one, ← coe_mul_pow, one_mul]

end CanonicalPolynomial

namespace Polynomial

section
variable [Std.TransOrd σ] [Std.LawfulEqOrd σ] {p : Polynomial σ}

theorem Canonical.pow_add_one (hp : p.Canonical) (e : Nat) : p.pow (e + 1) = p.pow e * p := by
  have hsucc := congrArg Subtype.val (pow_succ (⟨p, hp⟩ : CanonicalPolynomial σ) e)
  simpa using hsucc

omit [Std.TransOrd σ] [Std.LawfulEqOrd σ] in
/-- What is to hold of the powers of a polynomial. -/
structure PowerLaws (p : Polynomial σ) : Prop where
  /-- A power is what `1` becomes when it is multiplied by `p` so many times. -/
  iterate : ∀ e, p.pow e = Nat.iterate (· * p) e (const 1)
  add : ∀ d e, p.pow (d + e) = p.pow d * p.pow e
  mul : ∀ d e, (p.pow d).pow e = p.pow (d * e)

theorem PowerLaws.of_canonical (hp : p.Canonical) : PowerLaws p where
  iterate e := by
    induction e with
    | zero => rw [pow, powLoop, if_pos rfl, Function.iterate_zero, id]
    | succ e ih => rw [hp.pow_add_one, ih, Function.iterate_succ_apply']
  add d e := by
    have hsum := congrArg Subtype.val (pow_add (⟨p, hp⟩ : CanonicalPolynomial σ) d e)
    simpa using hsum
  mul d e := by
    have hproduct := congrArg Subtype.val (pow_mul (⟨p, hp⟩ : CanonicalPolynomial σ) d e)
    simpa using hproduct.symm

end

/-- **Power by squaring is repeated multiplication.**  The terms are the same, in their order, also
    where coefficients wrap around and terms cancel on the way; so exponents add up and multiply. -/
theorem Built.powerLaws {p : Poly} (hp : p.Built) : PowerLaws p := .of_canonical hp.canonical

example : (const 65536 * named "n" : Poly).pow 4 == zero := by decide +kernel

/-- The fourth power of `2 ^ 16 * n + 1` has no term in `n ^ 4`: the coefficient would be
    `2 ^ 64`. -/
theorem powerLaws_wrapping :
    let p : Poly := const 65536 * named "n" + const 1
    p.Built ∧ PowerLaws p ∧ (p.pow 2).pow 2 = const 1 * p * p * p * p ∧
      (p.pow 4).terms.length = 4 := by
  intro p
  have hp : p.Built := .add (.mul .const .ofSymbol) .const
  have hlaws := hp.powerLaws
  refine ⟨hp, hlaws, ?_, by decide +kernel⟩
  rw [hlaws.mul, hlaws.iterate]
  rfl

end Polynomial

/-! ## Maps of power products -/

namespace PowerProduct

variable {M : Type} [CommMonoid M] (f : σ → M)

omit [Ord σ] in
/-- The product of the powers of what `f` makes of the symbols. -/
def lift (m : PowerProduct σ) : M := (m.factors.map fun t => f t.1 ^ t.2.toNat).prod

variable [Std.LawfulEqOrd σ]

theorem prod_insertPower {s : σ} {e : UInt32} {l : List (σ × UInt32)} (h : insertFits s e l) :
    ((insertPower s e l).map fun t => f t.1 ^ t.2.toNat).prod =
      f s ^ e.toNat * (l.map fun t => f t.1 ^ t.2.toNat).prod := by
  induction l with
  | nil => rfl
  | cons t l ih =>
    obtain ⟨t, d⟩ := t
    rw [insertPower]
    split
    · rw [List.map_cons, List.prod_cons]
    · rename_i heq
      obtain rfl := Std.LawfulEqCmp.eq_of_compare heq
      simp only [List.map_cons, List.prod_cons]
      rw [toNat_add_of_fits (fits_of_insertFits h), pow_add, mul_comm (f s ^ d.toNat), mul_assoc]
    · rename_i hgt
      simp only [insertFits, hgt] at h
      simp only [List.map_cons, List.prod_cons, ih h]
      exact mul_left_comm ..

theorem lift_mul {m n : PowerProduct σ} (h : m.mulFits n) :
    (m.mul n).lift f = m.lift f * n.lift f := by
  obtain ⟨n⟩ := n
  simp only [lift]
  induction n with
  | nil => simp [mul]
  | cons t n ih =>
    obtain ⟨hn, ht⟩ := mulFits_cons.1 h
    rw [mul_cons, prod_insertPower f ht, ih hn, List.map_cons, List.prod_cons]
    exact mul_left_comm ..

end PowerProduct

end QuantumLowering
