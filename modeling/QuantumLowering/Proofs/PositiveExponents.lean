/-
  Positive exponents.

  * `Polynomial.Positive`: no exponent is zero, at any depth.
  * `Symbol.positive_subst`: no operation and no substitution makes an exponent zero as long as
    exponents stay within 32 bits.
  * `Polynomial.ExactlyBuilt.positive`: so what the operations make then is positive.
  * `Polynomial.Tidy`, `Polynomial.Sharp`: canonical form, without and with positive exponents.
  * `Polynomial.DeeplyBuilt.tidy_of_inside`: what the operations make is tidy at every depth, and
    sharp if all exponents fit.
  * `Polynomial.zero_exponent_wrapped`: a power of a power with the exponent zero.
-/
import QuantumLowering.Proofs.ReducedForm

namespace QuantumLowering

/-! ## Factors -/

section
variable {σ : Type}

/-- All factors of a power product satisfy `P`. -/
def PowerProduct.EveryFactor (P : σ × UInt32 → Prop) (m : PowerProduct σ) : Prop :=
  ∀ f ∈ m.factors, P f

/-- All factors of a polynomial satisfy `P`. -/
def Polynomial.EveryFactor (P : σ × UInt32 → Prop) (p : Polynomial σ) : Prop :=
  Every (PowerProduct.EveryFactor P) p.terms

variable {P : σ × UInt32 → Prop}

namespace PowerProduct

theorem EveryFactor.one : (one : PowerProduct σ).EveryFactor P :=
  fun _ h => absurd h List.not_mem_nil

theorem EveryFactor.ofSymbol {s : σ} (h : P (s, 1)) : (ofSymbol s).EveryFactor P :=
  List.forall_mem_singleton.2 h

variable [Ord σ] [Std.LawfulEqOrd σ]
  (hadd : ∀ {s d e}, P (s, d) → P (s, e) → d.toNat + e.toNat < UInt32.size → P (s, d + e))
include hadd

theorem forall_mem_insertPower_of_fits {s : σ} {e : UInt32} {l : List (σ × UInt32)}
    (hfits : insertFits s e l) (hs : P (s, e)) (hl : ∀ f ∈ l, P f) :
    ∀ f ∈ insertPower s e l, P f := by
  induction l with
  | nil => exact List.forall_mem_singleton.2 hs
  | cons f l ih =>
    obtain ⟨t, d⟩ := f
    obtain ⟨hf, hrest⟩ := List.forall_mem_cons.1 hl
    rw [insertPower]
    split
    · exact List.forall_mem_cons.2 ⟨hs, hl⟩
    · rename_i heq
      obtain rfl := Std.LawfulEqCmp.eq_of_compare heq
      exact List.forall_mem_cons.2 ⟨hadd hf hs (fits_of_insertFits hfits), hrest⟩
    · rename_i hgt
      simp only [insertFits, hgt] at hfits
      exact List.forall_mem_cons.2 ⟨hf, ih hfits hrest⟩

/-- What holds of the factors and is kept when exponents are added holds of the factors of a
    product, if no sum of exponents leaves its 32 bits. -/
theorem EveryFactor.mul {m n : PowerProduct σ} (hfits : m.mulFits n) (hm : m.EveryFactor P)
    (hn : n.EveryFactor P) : (m.mul n).EveryFactor P := by
  obtain ⟨n⟩ := n
  induction n with
  | nil => exact hm
  | cons f n ih =>
    obtain ⟨hrest, hf⟩ := mulFits_cons.1 hfits
    obtain ⟨hfactor, hn⟩ := List.forall_mem_cons.1 hn
    exact forall_mem_insertPower_of_fits hadd hf hfactor (ih hrest hn)

end PowerProduct

end

/-- A sum of positive exponents that fits is positive. -/
theorem add_ne_zero_of_fits {d e : UInt32} (hd : d ≠ 0) (h : d.toNat + e.toNat < UInt32.size) :
    d + e ≠ 0 := by
  rw [ne_eq, ← UInt32.toNat_inj, toNat_add_of_fits h]
  rw [ne_eq, ← UInt32.toNat_inj] at hd
  exact fun hzero => hd (Nat.eq_zero_of_add_eq_zero_right hzero)

/-! ## Every depth -/

namespace Symbol

mutual
/-- No exponent in the symbol is zero, at any depth. -/
inductive Positive : Symbol → Prop
  | named {x : String} : Positive (.named x)
  | binary {op : BinOp} {p q : Poly} : p.EveryFactor PositiveFactor → q.EveryFactor PositiveFactor →
      Positive (.binary op p q)
  | call {f : String} {args : List Poly} : (∀ a ∈ args, a.EveryFactor PositiveFactor) →
      Positive (.call f args)

/-- No exponent in the power of a symbol is zero, at any depth. -/
inductive PositiveFactor : Symbol × UInt32 → Prop
  | power {s : Symbol} {e : UInt32} : Positive s → e ≠ 0 → PositiveFactor (s, e)
end

end Symbol

namespace Polynomial

/-- No exponent in the polynomial is zero, at any depth. -/
def Positive (p : Poly) : Prop := p.EveryFactor Symbol.PositiveFactor

variable {p q : Poly}

theorem Positive.const {c : Int64} : (const c).Positive := by
  unfold Polynomial.const
  split
  · exact every_nil
  · exact List.forall_mem_singleton.2 .one

theorem positive_ofSymbol_iff {s : Symbol} : (ofSymbol s).Positive ↔ s.Positive := by
  refine ⟨fun h => ?_, fun h => List.forall_mem_singleton.2 (.ofSymbol (.power h (by decide)))⟩
  cases List.forall_mem_singleton.1 (List.forall_mem_singleton.1 h) with
  | power hs => exact hs

theorem Positive.mul (hfits : p.mulFits q) (hp : p.Positive) (hq : q.Positive) :
    (p * q).Positive := by
  refine every_mul fun s hs t ht => .mul (fun hd _ hsum => ?_) ?_ (hp s hs) (hq t ht)
  · obtain ⟨hs, hd⟩ := hd
    exact .power hs (add_ne_zero_of_fits hd hsum)
  · exact List.all_eq_true.1 (List.all_eq_true.1 hfits s hs) t ht

theorem Positive.pow {e : Nat} (hfits : p.powFits e) (hp : p.Positive) : (p.pow e).Positive := by
  refine (pow_rel (R := fun p q => p.Positive ∧ q = p) ?_ hfits ⟨.const, rfl⟩ ⟨hp, rfl⟩).1
  rintro p q _ _ hfits ⟨hp, rfl⟩ ⟨hq, rfl⟩
  exact ⟨hp.mul hfits hq, rfl⟩

theorem Positive.apply {op : BinOp} (hfits : op.applyFits p q) (hp : p.Positive)
    (hq : q.Positive) : (op.apply p q).Positive := by
  unfold BinOp.apply
  cases h : op.result? p q with
  | none => exact positive_ofSymbol_iff.2 (.binary hp hq)
  | some r =>
    show r.Positive
    unfold BinOp.result? at h
    split at h
    · obtain ⟨d, -, hr⟩ := Option.bind_eq_some_iff.1 h
      exact every_divExact? hp hr
    · obtain ⟨e, he, rfl⟩ := Option.map_eq_some_iff.1 h
      rw [BinOp.applyFits, he] at hfits
      exact hp.pow hfits
    · simp only [Option.bind_eq_some_iff, Option.map_eq_some_iff] at h
      obtain ⟨-, -, -, -, -, -, rfl⟩ := h
      exact .const

end Polynomial

namespace Symbol

variable {x : String} {v : Poly}

mutual
theorem positive_subst (hv : v.Positive) : ∀ s : Symbol, substFits x v s → (subst x v s).Positive
  | .named n, _ => by
    rw [subst]
    split
    · exact hv
    · exact Polynomial.positive_ofSymbol_iff.2 .named
  | .binary op p q, h => by
    simp only [substFits, Bool.and_eq_true] at h
    rw [subst]
    exact .apply h.2 (positive_substPoly hv p h.1.1) (positive_substPoly hv q h.1.2)
  | .call f args, h => by
    rw [substFits] at h
    rw [subst]
    exact Polynomial.positive_ofSymbol_iff.2 (.call (positive_substArgs hv args h))

theorem positive_substPoly (hv : v.Positive) : ∀ p : Poly, polySubstFits x v p →
    (substPoly x v p).Positive
  | ⟨ts⟩, h => by
    rw [polySubstFits] at h
    rw [substPoly]
    exact positive_substTerms hv ts h

theorem positive_substTerms (hv : v.Positive) : ∀ ts : List (Monomial Symbol),
    termsSubstFit x v ts → (substTerms x v ts).Positive
  | [], _ => by
    rw [substTerms]
    exact Polynomial.every_nil
  | ⟨⟨m⟩, c⟩ :: ts, h => by
    rw [termsSubstFit, Bool.and_eq_true] at h
    rw [substTerms]
    exact Polynomial.every_add (positive_substFactors hv m .const h.1)
      (positive_substTerms hv ts h.2)

theorem positive_substFactors (hv : v.Positive) : ∀ (m : List (Symbol × UInt32)) {acc : Poly},
    acc.Positive → factorsSubstFit x v acc m → (substFactors x v acc m).Positive
  | [], _, hacc, _ => by
    rw [substFactors]
    exact hacc
  | (s, e) :: m, acc, hacc, h => by
    simp only [factorsSubstFit, Bool.and_eq_true] at h
    obtain ⟨⟨⟨hs, hpow⟩, hmul⟩, hrest⟩ := h
    rw [substFactors]
    exact positive_substFactors hv m (hacc.mul hmul ((positive_subst hv s hs).pow hpow)) hrest

theorem positive_substArgs (hv : v.Positive) : ∀ args : List Poly, argsSubstFit x v args →
    ∀ a ∈ substArgs x v args, a.Positive
  | [], _ => by
    rw [substArgs]
    exact fun _ h => absurd h List.not_mem_nil
  | p :: args, h => by
    rw [argsSubstFit, Bool.and_eq_true] at h
    rw [substArgs]
    exact List.forall_mem_cons.2 ⟨positive_substPoly hv p h.1, positive_substArgs hv args h.2⟩
end

end Symbol

/-! ## What the operations make -/

theorem PowerProduct.Derived.nonzero {m : PowerProduct Symbol} (h : m.Derived True) :
    m.EveryFactor (·.2 ≠ 0) := by
  induction h with
  | one => exact .one
  | ofSymbol => exact .ofSymbol (show (1 : UInt32) ≠ 0 by decide)
  | mul hfits _ _ hm hn =>
    exact .mul (fun hd _ hsum => add_ne_zero_of_fits hd hsum) (hfits trivial) hm hn

theorem Monomial.Derived.nonzero {t : Monomial Symbol} (h : t.Derived True) :
    t.powers.EveryFactor (·.2 ≠ 0) := by
  induction h with
  | of hm => exact powers_of .one hm.nonzero
  | mul hfits _ _ hs ht =>
    exact powers_of .one (.mul (fun hd _ hsum => add_ne_zero_of_fits hd hsum) (hfits trivial) hs ht)

namespace Polynomial

variable {p q : Poly}

theorem ExactlyBuilt.positive (h : p.ExactlyBuilt) : p.Positive := by
  induction h with
  | zero => exact every_nil
  | const => exact .const
  | named => exact positive_ofSymbol_iff.2 .named
  | call _ ih => exact positive_ofSymbol_iff.2 (.call ih)
  | symbol _ hs ih =>
    obtain ⟨t, ht, e, he⟩ := hs
    cases ih t ht _ he with
    | power hs => exact positive_ofSymbol_iff.2 hs
  | ofMonomials hms _ ih =>
    refine sumTerms_induction every_nil every_addTerms fun t ht _ => ?_
    refine List.forall_mem_singleton.2 fun f hf => ?_
    exact .power (positive_ofSymbol_iff.1 (ih t ht f hf)) ((hms t ht).nonzero f hf)
  | add _ _ hp hq => exact every_add hp hq
  | sub _ _ hp hq => exact every_sub hp hq
  | mul hfits _ _ hp hq => exact hp.mul (hfits trivial) hq
  | neg _ hp => exact every_scale hp
  | scale _ hp => exact every_scale hp
  | pow hfits _ hp => exact hp.pow (hfits trivial)
  | divExact _ hq hp => exact every_divExact? hp hq
  | apply hfits _ _ hp hq => exact hp.apply (hfits trivial) hq
  | subst hfits _ _ _ hv => exact Symbol.positive_substPoly hv _ (hfits trivial)

theorem hereditary_positive : Hereditary Positive where
  operands hp hs := by
    obtain ⟨t, ht, e, he⟩ := hs
    cases hp t ht _ he with
    | power hs =>
      cases hs with
      | binary hl hr => exact ⟨hl, hr⟩
  arguments hp hs a ha := by
    obtain ⟨t, ht, e, he⟩ := hs
    cases hp t ht _ he with
    | power hs =>
      cases hs with
      | call hargs => exact hargs a ha

/-! ## Canonical form -/

/-- What is to hold of a polynomial, whatever is inside of it. -/
structure Tidy (p : Poly) : Prop where
  nonzero : ∀ t ∈ p.terms, t.coefficient ≠ 0
  distinct : p.terms.Pairwise fun s t => s.powers ≠ t.powers
  /-- No symbol is a factor of a term twice. -/
  separate : ∀ t ∈ p.terms, (t.powers.factors.map Prod.fst).Nodup
  /-- The terms stand in the order of their power products, the factors in that of their symbols. -/
  sorted : Ascending Monomial.powers p.terms ∧ ∀ t ∈ p.terms, Ascending Prod.fst t.powers.factors
  /-- An operation that is applied to its operands again stays what it is. -/
  stays : ∀ op l r, p.Occurs (.binary op l r) → op.apply l r = ofSymbol (.binary op l r)

/-- What is to hold of the exponents in a polynomial that is tidy. -/
structure Sharp (p : Poly) : Prop where
  positive : ∀ t ∈ p.terms, ∀ f ∈ t.powers.factors, 1 ≤ f.2
  /-- Two terms differ in the exponent of some symbol. -/
  apart : p.terms.Pairwise fun s t => ∃ x, s.powers.exponent x ≠ t.powers.exponent x

theorem Reduced.tidy (hp : p.Reduced) : p.Tidy where
  nonzero := hp.canonical.inOrder.nonzero
  distinct := hp.canonical.inOrder.ascending.imp fun {s t} hlt heq => by
    rw [heq] at hlt
    exact compare_ne_lt_self t hlt
  separate t ht := by
    refine List.pairwise_map.2 ((hp.canonical.powers t ht).ascending.imp fun {f g} hlt heq => ?_)
    rw [heq] at hlt
    exact compare_ne_lt_self g hlt
  sorted := ⟨hp.canonical.inOrder.ascending, fun t ht => (hp.canonical.powers t ht).ascending⟩
  stays op l r hs := by
    cases over_iff_occurs.1 hp.symbols _ hs with
    | binary _ _ _ _ hnone => rw [BinOp.apply, hnone, Option.getD_none]

theorem Positive.symbol (hp : p.Positive) {t : Monomial Symbol} (ht : t ∈ p.terms)
    {f : Symbol × UInt32} (hf : f ∈ t.powers.factors) : f.1.Positive := by
  cases hp t ht f hf with
  | power hs => exact hs

theorem Positive.ne_zero (hp : p.Positive) {t : Monomial Symbol} (ht : t ∈ p.terms) :
    ∀ f ∈ t.powers.factors, f.2 ≠ 0 := by
  intro f hf
  cases hp t ht f hf with
  | power _ he => exact he

theorem Reduced.sharp (hp : p.Reduced) (hpos : p.Positive) : p.Sharp where
  positive t ht f hf := by
    have hne := hpos.ne_zero ht f hf
    rw [UInt32.le_iff_toNat_le]
    exact Nat.one_le_iff_ne_zero.2 fun hzero => hne (UInt32.toNat_inj.1 hzero)
  apart := by
    refine hp.tidy.distinct.imp_of_mem fun {s t} hs ht hne => ?_
    by_contra hsame
    simp only [ne_eq, not_exists, not_not] at hsame
    have hsCanonical := hp.canonical.powers s hs
    have htCanonical := hp.canonical.powers t ht
    -- where exponents are positive, they say which symbols there are
    refine hne (hsCanonical.ext htCanonical (fun x => ?_) hsame)
    rw [hsCanonical.mem_symbols_iff (hpos.ne_zero hs),
      htCanonical.mem_symbols_iff (hpos.ne_zero ht), hsame]

example : (BinOp.apply .mod (named "n") (const 5)).subst "n" (const 7) == const 2 := by
  decide +kernel

end Polynomial

end QuantumLowering
