/-
  Substitution.

  * `Symbol.image`: what is put in place of a symbol.
  * `Polynomial.subst_add`, `subst_mul`, `subst_pow`: substitution commutes with the operations of
    the ring of canonical polynomials, with products and powers as long as exponents fit.
  * `Polynomial.subst_eq_self`: what fixes all symbols of a polynomial fixes the polynomial.
  * `Symbol.Reduced.subst_eq`: a symbol is fixed if the unknown does not occur in it or is put in
    place of itself.  The operations in it do not fold, and applied to the same operands they do
    not fold again.
  * `Polynomial.ExactlyBuilt.substLaws`: the laws of substitution, as equalities of the terms.
-/
import QuantumLowering.Proofs.CanonicalRing
import QuantumLowering.Proofs.PositiveExponents
import QuantumLowering.Proofs.Unknowns

namespace QuantumLowering

/-! ## Images -/

section
variable (x : String) (v : CanonicalPolynomial Symbol)

/-- What substitution puts in place of a symbol. -/
def Symbol.image (s : Symbol) : CanonicalPolynomial Symbol :=
  ⟨s.subst x v, s.canonical_subst v.2⟩

theorem PowerProduct.coe_mul_lift_image (acc : CanonicalPolynomial Symbol)
    (m : PowerProduct Symbol) :
    (acc * m.lift (Symbol.image x v)).1 = Symbol.substFactors x v acc m.factors := by
  obtain ⟨m⟩ := m
  induction m generalizing acc with
  | nil =>
    rw [Symbol.substFactors]
    exact congrArg Subtype.val (mul_one acc)
  | cons f m ih =>
    have hlift : acc * lift (Symbol.image x v) ⟨f :: m⟩ =
        acc * Symbol.image x v f.1 ^ f.2.toNat * lift (Symbol.image x v) ⟨m⟩ := by
      rw [mul_assoc, lift, lift, List.map_cons, List.prod_cons]
    rw [hlift, ih, Symbol.substFactors, CanonicalPolynomial.coe_mul, CanonicalPolynomial.coe_pow]
    rfl

namespace Polynomial

variable {w : PowerProduct Symbol → Int64}

/-- Substitution weighs a power product by its image. -/
theorem weigh_subst (p : Poly) : weigh w (p.subst x v).terms =
    weigh (fun m => weigh w (m.lift (Symbol.image x v)).1.terms) p.terms := by
  obtain ⟨ts⟩ := p
  rw [subst, Symbol.substPoly]
  induction ts with
  | nil => rw [Symbol.substTerms]; rfl
  | cons t ts ih =>
    have hfactors := PowerProduct.coe_mul_lift_image x v ⟨const t.coefficient, .const⟩ t.powers
    have hlift : (t.powers.lift (Symbol.image x v)).1.Canonical := Subtype.property _
    rw [CanonicalPolynomial.coe_mul, hlift.const_mul] at hfactors
    rw [Symbol.substTerms, weigh_add, ← hfactors, weigh_scale, ih, weigh_cons]

/-- Constants stay as they are. -/
theorem subst_const {c : Int64} : (const c : Poly).subst x v = const c := by
  refine InOrder.ext (Symbol.canonical_substPoly v.2 _).inOrder Canonical.const.inOrder fun w => ?_
  have hone : (PowerProduct.one.lift (Symbol.image x v)).1 = const 1 := rfl
  rw [weigh_subst, weigh_const, weigh_const, hone, weigh_const, Int64.one_mul]

end Polynomial

end

namespace Polynomial

variable {x : String} {v p q : Poly} (hv : v.Canonical)
include hv

/-! ## Operations -/

theorem subst_neg : (-p).subst x v = -p.subst x v := by
  have hcanonical (p : Poly) : (p.subst x v).Canonical := Symbol.canonical_substPoly hv p
  refine InOrder.ext (hcanonical _).inOrder (hcanonical _).inOrder.scale fun w => ?_
  rw [weigh_subst x ⟨v, hv⟩, weigh_neg, weigh_neg, weigh_subst x ⟨v, hv⟩]

theorem subst_add : (p + q).subst x v = p.subst x v + q.subst x v := by
  have hcanonical (p : Poly) : (p.subst x v).Canonical := Symbol.canonical_substPoly hv p
  refine InOrder.ext (hcanonical _).inOrder ((hcanonical p).add (hcanonical q)).inOrder fun w => ?_
  simp only [weigh_add, weigh_subst x ⟨v, hv⟩]

theorem subst_mul (hfits : p.mulFits q) : (p * q).subst x v = p.subst x v * q.subst x v := by
  refine InOrder.ext (Symbol.canonical_substPoly hv _).inOrder .mul fun w => ?_
  simp only [weigh_mul, weigh_subst x ⟨v, hv⟩]
  refine weigh_congr fun s hs => ?_
  rw [weigh_comm]
  refine weigh_congr fun t ht => ?_
  rw [PowerProduct.lift_mul _ (List.all_eq_true.1 (List.all_eq_true.1 hfits s hs) t ht),
    CanonicalPolynomial.coe_mul, weigh_mul, weigh_comm]

theorem subst_pow {e : Nat} (hfits : p.powFits e) : (p.pow e).subst x v = (p.subst x v).pow e := by
  refine pow_rel (R := fun p p' => p.subst x v = p') ?_ hfits (subst_const x ⟨v, hv⟩) rfl
  rintro p q _ _ hfits rfl rfl
  exact subst_mul hv hfits

end Polynomial

/-! ## What substitution fixes -/

/-- A product of powers is its first power times the others. -/
theorem PowerProduct.Canonical.singleton_mul {f : Symbol × UInt32} {m : List (Symbol × UInt32)}
    (h : Canonical ⟨f :: m⟩) : (⟨[f]⟩ : PowerProduct Symbol).mul ⟨m⟩ = ⟨f :: m⟩ := by
  have hfirst : Canonical ⟨[f]⟩ := ⟨List.pairwise_singleton ..⟩
  refine hfirst.mul.ext h (fun s => ?_) fun s => ?_
  · rw [mem_symbols_mul]
    simp
  · rw [exponent_mul]
    simp only [exponent, sumAt]
    grind

namespace Polynomial

variable {w : PowerProduct Symbol → Int64} {p v : Poly} {x : String}

/-- A power of a symbol is one term. -/
theorem weigh_pow_ofSymbol {s : Symbol} {e : UInt32} (he : e ≠ 0) :
    weigh w ((ofSymbol s).pow e.toNat).terms = w ⟨[(s, e)]⟩ := by
  have hcanonical : (ofSymbol s).Canonical := .ofSymbol
  have hmul {q : Poly} {w : PowerProduct Symbol → Int64} :
      weigh w (q * ofSymbol s).terms = weigh (fun m => w (m.mul (.ofSymbol s))) q.terms := by
    simp [weigh_mul, ofSymbol]
  have hpower (n : Nat) : weigh w ((ofSymbol s).pow (n + 1)).terms = w ⟨[(s, .ofNat (n + 1))]⟩ := by
    induction n generalizing w with
    | zero =>
      have hpow : (ofSymbol s).pow 0 = const 1 := by simp [pow, powLoop]
      rw [hcanonical.pow_add_one, hmul, hpow, weigh_const, Int64.one_mul]
      rfl
    | succ n ih =>
      have hnext : (⟨[(s, .ofNat (n + 1))]⟩ : PowerProduct Symbol).mul (.ofSymbol s) =
          ⟨[(s, .ofNat (n + 1 + 1))]⟩ := by
        rw [UInt32.ofNat_add (n + 1)]
        simp [PowerProduct.mul, PowerProduct.ofSymbol, PowerProduct.insertPower]
      rw [hcanonical.pow_add_one, hmul, ih, hnext]
  obtain ⟨n, hn⟩ := Nat.exists_eq_add_one_of_ne_zero fun hzero => he (UInt32.toNat_inj.1 hzero)
  rw [hn, hpower, ← hn, UInt32.ofNat_toNat]

/-- A power product of symbols that are fixed is fixed. -/
theorem weigh_lift_image (hv : v.Canonical) {m : PowerProduct Symbol} (hm : m.Canonical)
    (hne : ∀ f ∈ m.factors, f.2 ≠ 0) (hfixed : ∀ f ∈ m.factors, f.1.subst x v = ofSymbol f.1) :
    weigh w (m.lift (Symbol.image x ⟨v, hv⟩)).1.terms = w m := by
  obtain ⟨m⟩ := m
  induction m generalizing w with
  | nil =>
    show weigh w (const 1 : Poly).terms = _
    rw [weigh_const, Int64.one_mul]
    rfl
  | cons f m ih =>
    obtain ⟨hf, hrest⟩ := List.forall_mem_cons.1 hfixed
    obtain ⟨he, hne⟩ := List.forall_mem_cons.1 hne
    have hm' : PowerProduct.Canonical ⟨m⟩ := ⟨(List.pairwise_cons.1 hm.ascending).2⟩
    have hpow : (Symbol.image x ⟨v, hv⟩ f.1).1 = ofSymbol f.1 := hf
    have hlift : (PowerProduct.lift (Symbol.image x ⟨v, hv⟩) ⟨f :: m⟩).1 =
        (ofSymbol f.1).pow f.2.toNat * (PowerProduct.lift (Symbol.image x ⟨v, hv⟩) ⟨m⟩).1 := by
      rw [← hpow, ← CanonicalPolynomial.coe_pow, ← CanonicalPolynomial.coe_mul]
      rfl
    rw [hlift, weigh_mul]
    simp only [ih hm' hne hrest]
    rw [weigh_pow_ofSymbol he, hm.singleton_mul]

/-- What fixes all symbols of a polynomial fixes the polynomial. -/
theorem subst_eq_self (hv : v.Canonical) (hp : p.Canonical) (hpos : p.Positive)
    (hfixed : p.Over fun s => s.subst x v = ofSymbol s) : p.subst x v = p := by
  refine InOrder.ext (Symbol.canonical_substPoly hv _).inOrder hp.inOrder fun w => ?_
  rw [weigh_subst x ⟨v, hv⟩]
  exact weigh_congr fun t ht =>
    weigh_lift_image hv (hp.powers t ht) (hpos.ne_zero ht) (hfixed t ht)

theorem mentions_eq_false_iff :
    p.mentions x = false ↔ p.Over fun s => s.mentions x = false := by
  have hfactors : ∀ m : List (Symbol × UInt32),
      Symbol.factorsMention x m = false ↔ ∀ f ∈ m, f.1.mentions x = false := by
    intro m
    induction m with
    | nil => simp [Symbol.factorsMention]
    | cons f m ih => simp [Symbol.factorsMention, ih]
  rw [Bool.eq_false_iff, ne_eq, mentions_iff]
  simp only [not_exists, not_and, Bool.not_eq_true, PowerProduct.mentions, hfactors]
  rfl

end Polynomial

namespace Symbol

variable {v : Poly} {x : String}

theorem argsMention_eq_false_iff {args : List Poly} :
    argsMention x args = false ↔ ∀ a ∈ args, a.mentions x = false := by
  induction args with
  | nil => simp [argsMention]
  | cons a args ih => simp [argsMention, ih, Polynomial.mentions]

/-- A reduced symbol with positive exponents is fixed unless something else is put in place of the
    unknown in it. -/
theorem Reduced.subst_eq {s : Symbol} (hs : s.Reduced) (hpos : s.Positive) (hv : v.Canonical)
    (h : v = .named x ∨ s.mentions x = false) : s.subst x v = .ofSymbol s := by
  -- the operands are fixed, as their symbols are
  have hoperand {p : Poly} (hp : p.Canonical) (hpos : p.Positive)
      (ih : p.Over fun s => s.Positive → (v = .named x ∨ s.mentions x = false) →
        s.subst x v = .ofSymbol s)
      (h : v = .named x ∨ p.mentions x = false) : Symbol.substPoly x v p = p := by
    refine Polynomial.subst_eq_self hv hp hpos fun t ht f hf => ?_
    refine ih t ht f hf (hpos.symbol ht hf) (h.imp_right fun hx => ?_)
    exact Polynomial.mentions_eq_false_iff.1 hx t ht f hf
  induction hs with
  | @named n =>
    rw [subst]
    split
    · rename_i hn
      subst hn
      exact h.resolve_right (by simp [mentions])
    · rfl
  | @binary op p q hp _ hq _ hresult ihp ihq =>
    have hmentions : v = .named x ∨ p.mentions x = false ∧ q.mentions x = false := by
      simpa [mentions, Polynomial.mentions] using h
    cases hpos with
    | binary hpl hpr =>
      rw [subst, hoperand hp hpl ihp (hmentions.imp_right (·.1)),
        hoperand hq hpr ihq (hmentions.imp_right (·.2)), BinOp.apply, hresult, Option.getD_none]
  | @call f args hargs _ ih =>
    have hmentions : v = .named x ∨ ∀ a ∈ args, a.mentions x = false := by
      simpa [mentions, argsMention_eq_false_iff] using h
    cases hpos with
    | call hpos =>
      have hfixed : args.map (fun a => substPoly x v a) = args := by
        refine (List.map_congr_left fun a ha => ?_).trans (List.map_id args)
        exact hoperand (hargs a ha) (hpos a ha) (ih a ha) (hmentions.imp_right fun h => h a ha)
      rw [subst, substArgs_eq_map, hfixed]
      rfl

/-- What does not mention an unknown makes operations and calls that do not mention it. -/
theorem closed_not_mentions : Closed fun s => s.mentions x = false where
  binary _ hp _ hq _ := by
    rw [mentions, Bool.or_eq_false_iff]
    exact ⟨Polynomial.mentions_eq_false_iff.2 hp, Polynomial.mentions_eq_false_iff.2 hq⟩
  call _ hargs := by
    rw [mentions, argsMention_eq_false_iff]
    exact fun a ha => Polynomial.mentions_eq_false_iff.2 (hargs a ha)

end Symbol

/-! ## Laws -/

namespace Polynomial

variable {p q v : Poly} {x : String}

theorem Reduced.subst_eq (hp : p.Reduced) (hpos : p.Positive) (hv : v.Canonical)
    (h : v = named x ∨ p.mentions x = false) : p.subst x v = p :=
  subst_eq_self hv hp.canonical hpos fun t ht f hf =>
    (hp.symbols t ht f hf).subst_eq (hpos.symbol ht hf) hv <|
      h.imp_right fun hx => mentions_eq_false_iff.1 hx t ht f hf

/-- The laws of substitution at two polynomials. -/
structure SubstLaws (x : String) (v p q : Poly) : Prop where
  add : (p + q).subst x v = p.subst x v + q.subst x v
  mul : p.mulFits q → (p * q).subst x v = p.subst x v * q.subst x v
  neg : (-p).subst x v = -p.subst x v
  pow : ∀ e, p.powFits e → (p.pow e).subst x v = (p.subst x v).pow e
  const : ∀ c, (const c : Poly).subst x v = const c
  /-- An unknown in its own place. -/
  self : p.subst x (named x) = p
  /-- Anything in place of an unknown that does not occur. -/
  absent : p.mentions x = false → p.subst x v = p
  gone : v.mentions x = false → (p.subst x v).mentions x = false

/-- **Substitution obeys the algebraic laws** on the polynomials that the operations make as long as
    exponents fit.  It is a homomorphism of rings, where coefficients may wrap around and operations
    may fold; and it leaves a polynomial as it is, down to the operations in it, unless the unknown
    occurs and something else is put in its place. -/
theorem ExactlyBuilt.substLaws (hv : v.DeeplyBuilt) (hp : p.ExactlyBuilt) :
    SubstLaws x v p q where
  add := subst_add hv.reduced.canonical
  mul := subst_mul hv.reduced.canonical
  neg := subst_neg hv.reduced.canonical
  pow _ := subst_pow hv.reduced.canonical
  const _ := subst_const x ⟨v, hv.reduced.canonical⟩
  self := hp.reduced.subst_eq hp.positive .ofSymbol (.inl rfl)
  absent hx := hp.reduced.subst_eq hp.positive hv.reduced.canonical (.inr hx)
  gone hx := mentions_eq_false_iff.2 <|
    .subst Symbol.closed_not_mentions (fun n hn => by simp [Symbol.mentions, hn])
      hv.reduced.canonical (mentions_eq_false_iff.1 hx)

/-- A remainder, a call and a sum.  With `m + 2` in place of `n` the remainder is taken again and
    does not mention `n`; nothing changes in `m + 2` itself, whatever is put in place of `n`. -/
theorem substLaws_remainder :
    let sum := named "m" + const 2
    let remainder := BinOp.apply .mod (named "n") (const 5)
    let log := call "log2" [named "n"]
    sum.DeeplyBuilt ∧ sum.ExactlyBuilt ∧ remainder.ExactlyBuilt ∧ log.DeeplyBuilt ∧
      remainder.mulFits log ∧ SubstLaws "n" sum remainder log ∧
      (remainder * log).subst "n" sum = remainder.subst "n" sum * log.subst "n" sum ∧
      (remainder.subst "n" sum).mentions "n" = false ∧ sum.subst "n" log = sum := by
  intro sum remainder log
  have hsum (bounded : Prop) : sum.Derived bounded := .add .named .const
  have hremainder : remainder.ExactlyBuilt := .apply (fun _ => rfl) .named .const
  have hlog : log.DeeplyBuilt := .call (by simpa using .named)
  have hx : sum.mentions "n" = false := by decide
  have hfits : remainder.mulFits log := by decide +kernel
  have hlaws : SubstLaws "n" sum remainder log := hremainder.substLaws (hsum False)
  have habsent : SubstLaws "n" log sum log := ExactlyBuilt.substLaws hlog (hsum True)
  exact ⟨hsum False, hsum True, hremainder, hlog, hfits, hlaws, hlaws.mul hfits, hlaws.gone hx,
    habsent.absent hx⟩

end Polynomial

end QuantumLowering
