/-
  Exponents that stay within their 32 bits.

  * `PowerProduct.mulFits`: no sum of exponents leaves 32 bits in a product of power products.
  * `Polynomial.mulFits`, `powFits`: none does in a product of two polynomials, and on the way to a
    power.
  * `BinOp.applyFits`, `Polynomial.substFits`: none does when an operator is applied, and when an
    unknown is replaced.

  Where exponents fit, products mean what they say; elsewhere a power of a symbol becomes a smaller
  one.  Sums, multiples and quotients keep the exponents of their operands.
-/
import QuantumLowering.Symbol.Operators

namespace QuantumLowering

theorem toNat_add_of_fits {d e : UInt32} (h : d.toNat + e.toNat < UInt32.size) :
    (d + e).toNat = d.toNat + e.toNat := by
  rw [UInt32.toNat_add]
  exact Nat.mod_eq_of_lt h

section
variable {σ : Type} [Ord σ]

/-! ## Power products -/

namespace PowerProduct

/-- Whether the exponent that `insertPower` adds `e` to, if there is one, stays within 32 bits. -/
def insertFits (s : σ) (e : UInt32) : List (σ × UInt32) → Bool
  | [] => true
  | (t, d) :: rest =>
    match compare s t with
    | .lt => true
    | .eq => d.toNat + e.toNat < UInt32.size
    | .gt => insertFits s e rest

theorem fits_of_insertFits [Std.ReflOrd σ] {s : σ} {d e : UInt32} {l : List (σ × UInt32)}
    (h : insertFits s e ((s, d) :: l)) : d.toNat + e.toNat < UInt32.size := by
  have heq : compare s s = .eq := Std.ReflCmp.compare_self
  simpa [insertFits, heq] using h

/-- Whether all exponents stay within 32 bits when a product is multiplied by further factors. -/
def factorsFit (m : PowerProduct σ) : List (σ × UInt32) → Bool
  | [] => true
  | f :: n => m.factorsFit n && insertFits f.1 f.2 (m.mul ⟨n⟩).factors

/-- Whether all exponents of a product stay within 32 bits. -/
def mulFits (m n : PowerProduct σ) : Bool := m.factorsFit n.factors

theorem mul_cons {m : PowerProduct σ} {f : σ × UInt32} {n : List (σ × UInt32)} :
    m.mul ⟨f :: n⟩ = ⟨insertPower f.1 f.2 (m.mul ⟨n⟩).factors⟩ := rfl

theorem mulFits_cons {m : PowerProduct σ} {f : σ × UInt32} {n : List (σ × UInt32)} :
    m.mulFits ⟨f :: n⟩ ↔ m.mulFits ⟨n⟩ ∧ insertFits f.1 f.2 (m.mul ⟨n⟩).factors :=
  Bool.and_eq_true_iff

end PowerProduct

/-! ## Products and powers -/

namespace Polynomial

/-- Whether all exponents stay within 32 bits, whichever two terms are multiplied. -/
def mulFits (p q : Polynomial σ) : Bool :=
  p.terms.all fun s => q.terms.all fun t => s.powers.mulFits t.powers

/-- Whether all exponents stay within 32 bits on the way to `acc * base ^ e`. -/
def powLoopFits (acc base : Polynomial σ) (e : Nat) : Bool :=
  if e = 0 then true
  else
    (e % 2 = 0 || acc.mulFits base) &&
      (e / 2 = 0 || base.mulFits base &&
        powLoopFits (if e % 2 = 1 then acc * base else acc) (base * base) (e / 2))
termination_by e

/-- Whether all exponents stay within 32 bits on the way to a power. -/
def powFits (p : Polynomial σ) (e : Nat) : Bool := powLoopFits (const 1) p e

section
variable {τ : Type} [Ord τ] {R : Polynomial σ → Polynomial τ → Prop}
  (hmul : ∀ {p q p' q'}, p.mulFits q → R p p' → R q q' → R (p * q) (p' * q'))
include hmul

/-- Two loops side by side, of which the first one meets no exponent that leaves its 32 bits. -/
theorem powLoop_rel {acc base : Polynomial σ} {acc' base' : Polynomial τ} {e : Nat}
    (hfits : powLoopFits acc base e) (hacc : R acc acc') (hbase : R base base') :
    R (powLoop acc base e) (powLoop acc' base' e) := by
  induction e using Nat.strongRecOn generalizing acc base acc' base' with
  | ind e ih =>
    rw [powLoop.eq_def acc, powLoop.eq_def acc']
    by_cases he : e = 0
    · rw [if_pos he, if_pos he]
      exact hacc
    rw [powLoopFits, if_neg he] at hfits
    simp only [Bool.and_eq_true, Bool.or_eq_true, decide_eq_true_iff] at hfits
    obtain ⟨hfirst, hrest⟩ := hfits
    have hstep : R (if e % 2 = 1 then acc * base else acc)
        (if e % 2 = 1 then acc' * base' else acc') := by
      split
      · exact hmul (hfirst.resolve_left (by omega)) hacc hbase
      · exact hacc
    rw [if_neg he, if_neg he]
    dsimp only
    split
    · exact hstep
    · rename_i hmore
      obtain ⟨hsquare, hrest⟩ := hrest.resolve_left hmore
      exact ih (e / 2) (by omega) hrest hstep (hmul hsquare hbase hbase)

theorem pow_rel {p : Polynomial σ} {p' : Polynomial τ} {e : Nat} (hfits : p.powFits e)
    (hone : R (const 1) (const 1)) (hp : R p p') : R (p.pow e) (p'.pow e) :=
  powLoop_rel hmul hfits hone hp

end

end Polynomial

end

/-! ## Operators and substitution -/

/-- Whether all exponents stay within 32 bits when an operator is applied. -/
def BinOp.applyFits (op : BinOp) (p q : Poly) : Bool :=
  match op with
  | .pow => (exponent? q).all p.powFits
  | _ => true

namespace Symbol

mutual
/-- Whether all exponents stay within 32 bits when `v` is put in the place of `x` in a symbol. -/
def substFits (x : String) (v : Poly) : Symbol → Bool
  | .named _ => true
  | .binary op p q =>
    polySubstFits x v p && polySubstFits x v q &&
      op.applyFits (substPoly x v p) (substPoly x v q)
  | .call _ args => argsSubstFit x v args

/-- `substFits` on polynomials. -/
def polySubstFits (x : String) (v : Poly) : Polynomial Symbol → Bool
  | ⟨ts⟩ => termsSubstFit x v ts

/-- `substFits` on lists of terms. -/
def termsSubstFit (x : String) (v : Poly) : List (Monomial Symbol) → Bool
  | [] => true
  | ⟨⟨m⟩, c⟩ :: ts => factorsSubstFit x v (.const c) m && termsSubstFit x v ts

/-- `substFits` on lists of factors, by which `acc` is multiplied. -/
def factorsSubstFit (x : String) (v : Poly) (acc : Poly) : List (Symbol × UInt32) → Bool
  | [] => true
  | (s, e) :: m =>
    substFits x v s && (subst x v s).powFits e.toNat &&
      acc.mulFits ((subst x v s).pow e.toNat) &&
        factorsSubstFit x v (acc * (subst x v s).pow e.toNat) m

/-- `substFits` on argument lists. -/
def argsSubstFit (x : String) (v : Poly) : List (Polynomial Symbol) → Bool
  | [] => true
  | p :: ps => polySubstFits x v p && argsSubstFit x v ps
end

end Symbol

/-- Whether all exponents stay within 32 bits when `v` is put in the place of `x` everywhere. -/
def Polynomial.substFits (p : Poly) (x : String) (v : Poly) : Bool := Symbol.polySubstFits x v p

end QuantumLowering
