/-
  The polynomials are a commutative ring.

  * `Polynomial.Built`: the polynomials that the operations make, from unknowns, operations that
    stay symbolic and calls of any kind.  All of them are canonical.
  * `Polynomial.RingLaws`: the equations of a commutative ring, with `0` and `1` among the
    polynomials and multiples as products with constants.
  * `Polynomial.Built.ringLaws`: these equations hold as equalities of the terms themselves, also
    where coefficients wrap around and cancel.

  Both sides of an equation are in order, so they are equal if all weights agree on them
  (`InOrder.ext`), and weights turn sums and products of polynomials into those of coefficients.
  Only the laws in which power products change place or meet `1` need canonical power products.
-/
import QuantumLowering.Proofs.CanonicalForm
import QuantumLowering.Symbol.Operators

namespace QuantumLowering

namespace Polynomial

section
variable {σ : Type} [Ord σ] [Std.TransOrd σ] [Std.LawfulEqOrd σ]

/-- The equations of a commutative ring at three polynomials. -/
structure RingLaws (a b c : Polynomial σ) : Prop where
  add_assoc : a + b + c = a + (b + c)
  add_comm : a + b = b + a
  add_zero : a + zero = a
  zero_add : zero + a = a
  mul_assoc : a * b * c = a * (b * c)
  mul_comm : a * b = b * a
  mul_one : a * const 1 = a
  one_mul : const 1 * a = a
  mul_add : a * (b + c) = a * b + a * c
  add_mul : (a + b) * c = a * c + b * c
  sub_eq_add_neg : a - b = a + -b
  sub_self : a - a = zero
  scale_eq_mul : ∀ k, a.scale k = const k * a

variable {a b c : Polynomial σ} {s t : Monomial σ} {ts us : List (Monomial σ)}

/-! ## Laws of sums -/

theorem InOrder.add_comm (ha : InOrder a.terms) (hb : InOrder b.terms) : a + b = b + a :=
  ext (ha.addTerms hb) (hb.addTerms ha) fun _ => by
    rw [weigh_add, weigh_add, Int64.add_comm]

theorem InOrder.add_assoc (ha : InOrder a.terms) (hb : InOrder b.terms) (hc : InOrder c.terms) :
    a + b + c = a + (b + c) :=
  ext ((ha.addTerms hb).addTerms hc) (ha.addTerms (hb.addTerms hc)) fun _ => by
    simp only [weigh_add, Int64.add_assoc]

theorem InOrder.add_zero (ha : InOrder a.terms) : a + zero = a :=
  ext (ha.addTerms .nil) ha fun _ => by rw [weigh_add, zero, weigh_nil, Int64.add_zero]

theorem InOrder.sub_eq_add_neg (ha : InOrder a.terms) (hb : InOrder b.terms) : a - b = a + -b :=
  ext (ha.sub hb) (ha.addTerms hb.scale) fun _ => by
    rw [weigh_sub, weigh_add, weigh_neg, Int64.sub_eq_add_neg]

theorem InOrder.sub_self (ha : InOrder a.terms) : a - a = zero :=
  ext (ha.sub ha) .nil fun _ => by rw [weigh_sub, zero, weigh_nil, Int64.sub_self]

theorem InOrder.add_sub_cancel_left (ha : InOrder a.terms) (hb : InOrder b.terms) :
    a + b - a = b :=
  ext ((ha.addTerms hb).sub ha) hb fun _ => by rw [weigh_sub, weigh_add]; grind

/-- The order in which monomials come does not matter. -/
theorem ofMonomials_perm (h : ts.Perm us) : ofMonomials ts = ofMonomials us :=
  InOrder.ext .sumTerms .sumTerms fun _ => by
    rw [ofMonomials, ofMonomials, weigh_sumTerms, weigh_sumTerms, weigh_perm h]

/-! ## Laws of products -/

theorem mul_add : a * (b + c) = a * b + a * c :=
  InOrder.ext .mul (.addTerms .mul .mul) fun _ => by simp only [weigh_mul, weigh_add, weigh_sum]

theorem add_mul : (a + b) * c = a * c + b * c :=
  InOrder.ext .mul (.addTerms .mul .mul) fun _ => by simp only [weigh_mul, weigh_add]

/-- The product of two monomials is that of their polynomials. -/
theorem ofMonomials_mul : ofMonomials [s.mul t] = ofMonomials [s] * ofMonomials [t] :=
  InOrder.ext .sumTerms .mul fun w => by
    simp only [weigh_mul, ofMonomials, weigh_sumTerms, weigh_cons, weigh_nil, Int64.add_zero,
      Monomial.mul, weigh_of, Int64.mul_assoc]

theorem Canonical.mul_comm (ha : a.Canonical) (hb : b.Canonical) : a * b = b * a := by
  refine InOrder.ext .mul .mul fun w => ?_
  rw [weigh_mul, weigh_mul, weigh_comm]
  refine weigh_congr fun t ht => weigh_congr fun s hs => ?_
  rw [(ha.powers s hs).mul_comm (hb.powers t ht)]

theorem Canonical.mul_assoc (ha : a.Canonical) : a * b * c = a * (b * c) := by
  refine InOrder.ext .mul .mul fun w => ?_
  simp only [weigh_mul]
  refine weigh_congr fun s hs => weigh_congr fun t _ => weigh_congr fun u _ => ?_
  rw [(ha.powers s hs).mul_assoc]

theorem Canonical.const_mul (ha : a.Canonical) (k : Int64) :
    Polynomial.const k * a = a.scale k := by
  refine InOrder.ext .mul ha.inOrder.scale fun w => ?_
  rw [weigh_mul, weigh_const, weigh_scale]
  congr 1
  exact weigh_congr fun t ht => by rw [(ha.powers t ht).one_mul]

theorem InOrder.scale_one (ha : InOrder a.terms) : a.scale 1 = a :=
  ext ha.scale ha fun _ => by rw [weigh_scale, Int64.one_mul]

theorem RingLaws.of_canonical (ha : a.Canonical) (hb : b.Canonical) (hc : c.Canonical) :
    RingLaws a b c where
  add_assoc := ha.inOrder.add_assoc hb.inOrder hc.inOrder
  add_comm := ha.inOrder.add_comm hb.inOrder
  add_zero := ha.inOrder.add_zero
  zero_add := (InOrder.nil.add_comm ha.inOrder).trans ha.inOrder.add_zero
  mul_assoc := ha.mul_assoc
  mul_comm := ha.mul_comm hb
  mul_one := by rw [ha.mul_comm .const, ha.const_mul, ha.inOrder.scale_one]
  one_mul := by rw [ha.const_mul, ha.inOrder.scale_one]
  mul_add := Polynomial.mul_add
  add_mul := Polynomial.add_mul
  sub_eq_add_neg := ha.inOrder.sub_eq_add_neg hb.inOrder
  sub_self := ha.inOrder.sub_self
  scale_eq_mul k := (ha.const_mul k).symm

end

end Polynomial

/-! ## What the operations make -/

/-- The power products that the operations make; if `bounded`, without an exponent that leaves its
    32 bits. -/
inductive PowerProduct.Derived (bounded : Prop) : PowerProduct Symbol → Prop
  | one : Derived bounded .one
  | ofSymbol {s} : Derived bounded (.ofSymbol s)
  | mul {m n} : (bounded → m.mulFits n) → Derived bounded m → Derived bounded n →
      Derived bounded (m.mul n)

/-- The monomials that the operations make; if `bounded`, without an exponent that leaves its
    32 bits. -/
inductive Monomial.Derived (bounded : Prop) : Monomial Symbol → Prop
  | of {c m} : m.Derived bounded → Derived bounded (.of c m)
  | mul {s t} : (bounded → s.powers.mulFits t.powers) → Derived bounded s → Derived bounded t →
      Derived bounded (s.mul t)

/-- The monomials that the operations make, where exponents may wrap around. -/
abbrev Monomial.Built (t : Monomial Symbol) : Prop := t.Derived False

/-- The polynomials that the operations make.  The symbols are arbitrary, so this includes those
    whose own polynomials the operations make. -/
inductive Polynomial.Built : Poly → Prop
  | zero : Built .zero
  | const {c} : Built (.const c)
  | ofSymbol {s} : Built (.ofSymbol s)
  | ofMonomials {ms} : (∀ t ∈ ms, t.Built) → Built (.ofMonomials ms)
  | add {p q} : Built p → Built q → Built (p + q)
  | sub {p q} : Built p → Built q → Built (p - q)
  | mul {p q} : Built p → Built q → Built (p * q)
  | neg {p} : Built p → Built (-p)
  | scale {p k} : Built p → Built (p.scale k)
  | pow {p e} : Built p → Built (p.pow e)
  | divExact {p q d} : Built p → p.divExact? d = some q → Built q
  | apply {op p q} : Built p → Built q → Built (BinOp.apply op p q)
  | subst {p x v} : Built p → Built v → Built (p.subst x v)

theorem PowerProduct.Derived.canonical {bounded : Prop} {m : PowerProduct Symbol}
    (h : m.Derived bounded) : m.Canonical := by
  induction h with
  | one => exact .one
  | ofSymbol => exact .ofSymbol
  | mul _ _ _ hm _ => exact hm.mul

/-- What holds of `1` holds of the power products of all monomials if it holds of all others. -/
theorem Monomial.powers_of {P : PowerProduct Symbol → Prop} {c : Int64} {m : PowerProduct Symbol}
    (hone : P .one) (hm : P m) : P (Monomial.of c m).powers := by
  unfold Monomial.of
  split
  · exact hone
  · exact hm

theorem Monomial.Derived.canonical {bounded : Prop} {t : Monomial Symbol} (h : t.Derived bounded) :
    t.powers.Canonical := by
  induction h with
  | of hm => exact powers_of .one hm.canonical
  | mul _ _ _ hs _ => exact powers_of .one hs.mul

namespace Polynomial

theorem Canonical.apply {op : BinOp} {p q : Poly} (hp : p.Canonical) :
    (op.apply p q).Canonical := by
  have hresult : ∀ r, op.result? p q = some r → r.Canonical := by
    intro r h
    unfold BinOp.result? at h
    split at h
    · obtain ⟨d, -, hr⟩ := Option.bind_eq_some_iff.1 h
      exact hp.divExact? hr
    · obtain ⟨e, -, rfl⟩ := Option.map_eq_some_iff.1 h
      exact hp.pow
    · simp only [Option.bind_eq_some_iff, Option.map_eq_some_iff] at h
      obtain ⟨-, -, -, -, -, -, rfl⟩ := h
      exact .const
  unfold BinOp.apply
  cases h : op.result? p q with
  | none => exact .ofSymbol
  | some r => exact hresult r h

end Polynomial

namespace Symbol

variable {x : String} {v : Poly}

mutual
theorem canonical_subst (hv : v.Canonical) : ∀ s : Symbol, (subst x v s).Canonical
  | .named n => by
    rw [subst]
    split
    · exact hv
    · exact .ofSymbol
  | .binary op p q => by
    rw [subst]
    exact .apply (canonical_substPoly hv p)
  | .call f args => by
    rw [subst]
    exact .ofSymbol

theorem canonical_substPoly (hv : v.Canonical) :
    ∀ p : Polynomial Symbol, (substPoly x v p).Canonical
  | ⟨ts⟩ => by
    rw [substPoly]
    exact canonical_substTerms hv ts

theorem canonical_substTerms (hv : v.Canonical) :
    ∀ ts : List (Monomial Symbol), (substTerms x v ts).Canonical
  | [] => by
    rw [substTerms]
    exact .zero
  | ⟨⟨m⟩, c⟩ :: ts => by
    rw [substTerms]
    exact .add (canonical_substFactors hv .const m) (canonical_substTerms hv ts)

theorem canonical_substFactors (hv : v.Canonical) {acc : Poly} (hacc : acc.Canonical) :
    ∀ m : List (Symbol × UInt32), (substFactors x v acc m).Canonical
  | [] => by
    rw [substFactors]
    exact hacc
  | (s, e) :: m => by
    rw [substFactors]
    exact canonical_substFactors hv hacc.mul m
end

end Symbol

namespace Polynomial

theorem Built.canonical {p : Poly} (h : p.Built) : p.Canonical := by
  induction h with
  | zero => exact .zero
  | const => exact .const
  | ofSymbol => exact .ofSymbol
  | ofMonomials hms => exact .ofMonomials fun t ht => (hms t ht).canonical
  | add _ _ hp hq => exact hp.add hq
  | sub _ _ hp hq => exact hp.sub hq
  | mul _ _ hp _ => exact hp.mul
  | neg _ hp => exact hp.scale
  | scale _ hp => exact hp.scale
  | pow _ hp => exact hp.pow
  | divExact _ hq hp => exact hp.divExact? hq
  | apply _ _ hp _ => exact hp.apply
  | subst _ _ _ hv => exact Symbol.canonical_substPoly hv _

/-- The polynomials that the operations make are a commutative ring.  Coefficients wrap around, so
    terms can cancel that are not the negatives of each other; the equations are equalities of the
    terms in their order.  A sum of monomials depends only on how often each of them occurs, and
    the sum of one product is the product of the sums. -/
theorem Built.ringLaws {a b c : Poly} (ha : a.Built) (hb : b.Built) (hc : c.Built) :
    RingLaws a b c ∧
      (∀ ts us : List (Monomial Symbol), ts.Perm us → Polynomial.ofMonomials ts = .ofMonomials us) ∧
      ∀ s t : Monomial Symbol,
        Polynomial.ofMonomials [s.mul t] = .ofMonomials [s] * .ofMonomials [t] :=
  ⟨.of_canonical ha.canonical hb.canonical hc.canonical, fun _ _ => ofMonomials_perm,
    fun _ _ => ofMonomials_mul⟩

/-- Coefficients of which two make zero, an operation that stays symbolic, and a call. -/
theorem ringLaws_wrapping :
    (const 4294967296 * named "n" + call "log2" [named "n"]).Built ∧
      (const 4294967296 - BinOp.apply .div (named "n") (const 2)).Built ∧
      ((named "n" * named "n").subst "n" (named "m" + const 1)).Built ∧
      RingLaws (const 4294967296 * named "n" + call "log2" [named "n"])
        (const 4294967296 - BinOp.apply .div (named "n") (const 2))
        ((named "n" * named "n").subst "n" (named "m" + const 1)) ∧
      ofMonomials [.of 4294967296 (.ofSymbol (Symbol.named "n")), .of 2 .one] =
        ofMonomials [.of 2 .one, .of 4294967296 (.ofSymbol (Symbol.named "n"))] ∧
      ofMonomials
          [(Monomial.of 4294967296 (.ofSymbol (Symbol.named "n"))).mul (.of 4294967296 .one)] =
        ofMonomials [.of 4294967296 (.ofSymbol (Symbol.named "n"))] *
          ofMonomials [.of 4294967296 .one] := by
  have hx : (const 4294967296 * named "n" + call "log2" [named "n"]).Built :=
    .add (.mul .const .ofSymbol) .ofSymbol
  have hy : (const 4294967296 - BinOp.apply .div (named "n") (const 2)).Built :=
    .sub .const (.apply .ofSymbol .const)
  have hz : ((named "n" * named "n").subst "n" (named "m" + const 1)).Built :=
    .subst (.mul .ofSymbol .ofSymbol) (.add .ofSymbol .const)
  obtain ⟨laws, perm, product⟩ := Built.ringLaws hx hy hz
  exact ⟨hx, hy, hz, laws, perm _ _ (.swap ..), product _ _⟩

example : (const 4294967296 * const 4294967296 : Poly) = zero := rfl

end Polynomial

end QuantumLowering
