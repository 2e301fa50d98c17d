/-
  Values of polynomials.

  * `Polynomial.eval`: the value under an assignment to the symbols, with 64-bit arithmetic.
  * `Polynomial.constant?_eq_some_iff`: the two ways in which the terms of a constant look.
  * `Polynomial.eval_add`, `eval_sub`: sums have the values that they should have, whether or not
    the terms of their operands are in order.
  * `Polynomial.eval_mul`, `eval_pow`: so have products and powers whose exponents fit.
  * `Polynomial.exists_divExact?`, `weigh_of_divExact?`: what divides every coefficient has an exact
    quotient, and this times the divisor weighs as much as the dividend.
  * `Quantity.not_surelyDiffers_of_weigh_eq`: what weighs the same does not surely differ.
-/
import QuantumLowering.Proofs.Exponents
import QuantumLowering.Proofs.Sums
import QuantumLowering.Quantity

namespace QuantumLowering

theorem int64_pow_add_two_mul (a : Int64) (n m : Nat) : a ^ (n + 2 * m) = a ^ n * (a * a) ^ m := by
  induction m with
  | zero => simp
  | succ m ih => rw [Int64.pow_succ, ← Int64.mul_assoc, ← ih]; grind

theorem int64_two_pow {n : Nat} (h : 64 ≤ n) : (2 : Int64) ^ n = 0 := by
  obtain ⟨m, rfl⟩ := Nat.exists_eq_add_of_le h
  induction m with
  | zero => decide +kernel
  | succ m ih => rw [← Nat.add_assoc, Int64.pow_succ, ih (Nat.le_add_right ..), Int64.zero_mul]

/-- An exact quotient times the divisor is the dividend, also where the quotient overflows. -/
theorem int64_div_mul_cancel {a d : Int64} (h : d.toInt ∣ a.toInt) : a / d * d = a := by
  apply Int64.toInt_inj.1
  rw [Int64.toInt_mul, Int64.toInt_div, Int.bmod_mul_bmod, Int.tdiv_mul_cancel h]
  exact Int64.toInt_bmod_size a

variable {σ : Type} {ρ : σ → Int64}

/-- The value of a list of factors. -/
def PowerProduct.evalFactors (ρ : σ → Int64) : List (σ × UInt32) → Int64
  | [] => 1
  | (s, e) :: m => ρ s ^ e.toNat * evalFactors ρ m

/-- The value of a power product. -/
def PowerProduct.eval (ρ : σ → Int64) (m : PowerProduct σ) : Int64 := evalFactors ρ m.factors

/-- The value of a monomial. -/
def Monomial.eval (ρ : σ → Int64) (t : Monomial σ) : Int64 := t.coefficient * t.powers.eval ρ

/-- The value of a list of terms. -/
def Polynomial.evalTerms (ρ : σ → Int64) : List (Monomial σ) → Int64
  | [] => 0
  | t :: ts => t.eval ρ + evalTerms ρ ts

/-- The value of a polynomial. -/
def Polynomial.eval (ρ : σ → Int64) (p : Polynomial σ) : Int64 := evalTerms ρ p.terms

/-! ## Power products -/

namespace PowerProduct

@[simp] theorem eval_one : (one : PowerProduct σ).eval ρ = 1 := rfl

@[simp] theorem eval_ofSymbol (s : σ) : (ofSymbol s).eval ρ = ρ s := by
  simp [eval, ofSymbol, evalFactors, Int64.pow_succ]

variable [Ord σ] [Std.LawfulEqOrd σ]

theorem evalFactors_insertPower {s : σ} {e : UInt32} {m : List (σ × UInt32)}
    (h : insertFits s e m) :
    evalFactors ρ (insertPower s e m) = ρ s ^ e.toNat * evalFactors ρ m := by
  induction m with
  | nil => rfl
  | cons f m ih =>
    obtain ⟨t, d⟩ := f
    rw [insertPower]
    split
    · rfl
    · rename_i heq
      obtain rfl := Std.LawfulEqCmp.eq_of_compare heq
      simp only [evalFactors, toNat_add_of_fits (fits_of_insertFits h)]; grind
    · rename_i hgt
      simp only [insertFits, hgt] at h
      simp only [evalFactors, ih h]; grind

theorem eval_mul {m n : PowerProduct σ} (h : m.mulFits n) :
    (m.mul n).eval ρ = m.eval ρ * n.eval ρ := by
  obtain ⟨n⟩ := n
  simp only [eval]
  induction n with
  | nil => simp [evalFactors, mul]
  | cons f n ih =>
    obtain ⟨hn, hf⟩ := mulFits_cons.1 h
    rw [mul_cons, evalFactors_insertPower hf, ih hn, evalFactors]; grind

end PowerProduct

/-! ## Sums of terms -/

namespace Polynomial

@[simp] theorem evalTerms_nil : evalTerms ρ ([] : List (Monomial σ)) = 0 := rfl

@[simp] theorem evalTerms_cons {t : Monomial σ} {ts : List (Monomial σ)} :
    evalTerms ρ (t :: ts) = t.eval ρ + evalTerms ρ ts := rfl

/-- The value of a list of terms weighs each power product by its value. -/
theorem evalTerms_eq_weigh {ts : List (Monomial σ)} :
    evalTerms ρ ts = weigh (PowerProduct.eval ρ) ts := by
  induction ts with
  | nil => rfl
  | cons t ts ih => rw [evalTerms_cons, weigh_cons, ih, Monomial.eval]

@[simp] theorem eval_const {c : Int64} : (const c : Polynomial σ).eval ρ = c := by
  unfold const
  split <;> simp_all [eval, Monomial.eval]

@[simp] theorem eval_ofSymbol {s : σ} : (ofSymbol s).eval ρ = ρ s := by
  simp [eval, ofSymbol, Monomial.eval]

theorem constant?_eq_some_iff {p : Polynomial σ} {c : Int64} :
    p.constant? = some c ↔ (p.terms = [] ∧ c = 0) ∨ p.terms = [⟨.one, c⟩] := by
  obtain ⟨ts⟩ := p
  match ts with
  | [] => simp [constant?, eq_comm]
  | [⟨⟨m⟩, e⟩] => cases m <;> simp [constant?, PowerProduct.isOne, PowerProduct.one]
  | _ :: _ :: _ => simp [constant?]

theorem weigh_of_constant? {w : PowerProduct σ → Int64} {p : Polynomial σ} {c : Int64}
    (h : p.constant? = some c) : weigh w p.terms = c * w .one := by
  rcases constant?_eq_some_iff.1 h with ⟨hnil, rfl⟩ | hone
  · rw [hnil, weigh_nil, Int64.zero_mul]
  · rw [hone, weigh_cons, weigh_nil, Int64.add_zero]

theorem eval_of_constant? {p : Polynomial σ} {c : Int64} (h : p.constant? = some c) :
    p.eval ρ = c := by
  rw [eval, evalTerms_eq_weigh, weigh_of_constant? h, PowerProduct.eval_one, Int64.mul_one]

/-- The content divides every coefficient. -/
theorem content_dvd {p : Polynomial σ} {t : Monomial σ} (ht : t ∈ p.terms) :
    p.content ∣ t.coefficient.toInt.natAbs := by
  have key : ∀ (ts : List (Monomial σ)) (g : Nat),
      (ts.foldl (fun g t => g.gcd t.coefficient.toInt.natAbs) g ∣ g) ∧
        ∀ t ∈ ts, ts.foldl (fun g t => g.gcd t.coefficient.toInt.natAbs) g ∣
          t.coefficient.toInt.natAbs := by
    intro ts
    induction ts with
    | nil => simp
    | cons u ts ih =>
      intro g
      obtain ⟨hg, hts⟩ := ih (g.gcd u.coefficient.toInt.natAbs)
      refine ⟨Nat.dvd_trans hg (Nat.gcd_dvd_left ..), fun t ht => ?_⟩
      rcases List.mem_cons.1 ht with rfl | ht
      · exact Nat.dvd_trans hg (Nat.gcd_dvd_right ..)
      · exact hts t ht
  exact (key p.terms 0).2 t ht

/-- What divides every coefficient divides the content. -/
theorem dvd_content {p : Polynomial σ} {n : Nat} (h : ∀ t ∈ p.terms, n ∣ t.coefficient.toInt.natAbs) :
    n ∣ p.content := by
  have key : ∀ (ts : List (Monomial σ)) (g : Nat), n ∣ g →
      (∀ t ∈ ts, n ∣ t.coefficient.toInt.natAbs) →
        n ∣ ts.foldl (fun g t => g.gcd t.coefficient.toInt.natAbs) g := by
    intro ts
    induction ts with
    | nil => exact fun _ hg _ => hg
    | cons t ts ih =>
      intro g hg hts
      obtain ⟨ht, hts⟩ := List.forall_mem_cons.1 hts
      exact ih _ (Nat.dvd_gcd hg ht) hts
  exact key p.terms 0 (Nat.dvd_zero n) h

theorem exists_divExact? {p : Polynomial σ} {d : Int64} (hd : d ≠ 0)
    (h : ∀ t ∈ p.terms, d.toInt ∣ t.coefficient.toInt) :
    ∃ q, p.divExact? d = some q := by
  have hmod : p.content % d.toInt.natAbs = 0 :=
    Nat.mod_eq_zero_of_dvd (dvd_content fun t ht => Int.natAbs_dvd_natAbs.2 (h t ht))
  simp [divExact?, hd, hmod]

/-- The coefficients of an exact quotient are the exact quotients of the coefficients. -/
theorem eq_of_divExact? {p q : Polynomial σ} {d : Int64} (h : p.divExact? d = some q) :
    q = ⟨p.terms.map fun t => ⟨t.powers, t.coefficient / d⟩⟩ ∧
      ∀ t ∈ p.terms, t.coefficient / d * d = t.coefficient := by
  unfold divExact? at h
  split at h
  · simp at h
  · rename_i hd
    simp only [not_or, Decidable.not_not] at hd
    refine ⟨(Option.some.inj h).symm, fun t ht => int64_div_mul_cancel (Int.natAbs_dvd_natAbs.1 ?_)⟩
    exact Nat.dvd_trans (Nat.dvd_of_mod_eq_zero hd.2) (content_dvd ht)

theorem weigh_of_divExact? {w : PowerProduct σ → Int64} {p q : Polynomial σ} {d : Int64}
    (h : p.divExact? d = some q) : weigh w q.terms * d = weigh w p.terms := by
  obtain ⟨rfl, hdvd⟩ := eq_of_divExact? h
  generalize p.terms = ts at hdvd ⊢
  induction ts with
  | nil => simp
  | cons t ts ih =>
    obtain ⟨ht, hts⟩ := List.forall_mem_cons.1 hdvd
    have := ih hts
    simp only [List.map_cons, weigh_cons] at this ⊢
    grind

variable [Ord σ] [Std.LawfulEqOrd σ]

variable {p q : Polynomial σ}

@[simp] theorem eval_add : (p + q).eval ρ = p.eval ρ + q.eval ρ := by
  simp only [eval, evalTerms_eq_weigh]
  exact weigh_addTerms

@[simp] theorem eval_sub : (p - q).eval ρ = p.eval ρ - q.eval ρ := by
  simp only [eval, evalTerms_eq_weigh]
  exact weigh_sub

theorem eval_mul (h : p.mulFits q) : (p * q).eval ρ = p.eval ρ * q.eval ρ := by
  have hfits {s t : Monomial σ} (hs : s ∈ p.terms) (ht : t ∈ q.terms) :
      s.powers.mulFits t.powers := List.all_eq_true.1 (List.all_eq_true.1 h s hs) t ht
  simp only [eval, evalTerms_eq_weigh]
  rw [weigh_mul, ← weigh_mul_right]
  refine weigh_congr fun s hs => ?_
  rw [← weigh_mul_left]
  exact weigh_congr fun t ht => PowerProduct.eval_mul (hfits hs ht)

/-- Squaring: the loop computes the product of the accumulator and the power. -/
theorem eval_powLoop {acc base : Polynomial σ} {e : Nat} (h : powLoopFits acc base e) :
    (powLoop acc base e).eval ρ = acc.eval ρ * base.eval ρ ^ e := by
  have hstep {acc base : Polynomial σ} {e : Nat} (h : e % 2 = 0 ∨ acc.mulFits base) :
      (if e % 2 = 1 then acc * base else acc).eval ρ = acc.eval ρ * base.eval ρ ^ (e % 2) := by
    rcases Nat.mod_two_eq_zero_or_one e with h0 | h1
    · simp [h0]
    · simp [h1, eval_mul (h.resolve_left (by omega)), Int64.pow_succ]
  fun_induction powLoop acc base e with
  | case1 => simp
  | case2 acc base e he acc' hdone =>
    rw [powLoopFits, if_neg he, Bool.and_eq_true, Bool.or_eq_true, decide_eq_true_iff] at h
    obtain rfl : e = 1 := by omega
    exact hstep h.1
  | case3 acc base e he acc' hmore ih =>
    rw [powLoopFits, if_neg he] at h
    simp only [Bool.and_eq_true, Bool.or_eq_true, decide_eq_true_iff] at h
    obtain ⟨hacc, hrest⟩ := h
    obtain ⟨hsquare, hrest⟩ := hrest.resolve_left hmore
    have hpow : base.eval ρ ^ e =
        base.eval ρ ^ (e % 2) * (base.eval ρ * base.eval ρ) ^ (e / 2) := by
      rw [← int64_pow_add_two_mul, Nat.mod_add_div]
    have hacc' : acc'.eval ρ = acc.eval ρ * base.eval ρ ^ (e % 2) := hstep hacc
    rw [ih hrest, hacc', eval_mul hsquare, hpow, Int64.mul_assoc]

theorem eval_pow {e : Nat} (h : p.powFits e) : (p.pow e).eval ρ = p.eval ρ ^ e := by
  simp [pow, eval_powLoop h]

/-- A multiple of a symbol by a constant that is given as a polynomial. -/
theorem eval_mul_ofSymbol {c : Int64} {s : σ} (h : p.constant? = some c) :
    (p * ofSymbol s).eval ρ = c * ρ s := by
  have hfits : p.mulFits (ofSymbol s) := by
    rcases constant?_eq_some_iff.1 h with ⟨hnil, -⟩ | hone
    · simp [mulFits, hnil]
    · simp [mulFits, hone, ofSymbol, PowerProduct.mulFits, PowerProduct.ofSymbol,
        PowerProduct.factorsFit, PowerProduct.mul, PowerProduct.one, PowerProduct.insertFits]
  rw [eval_mul hfits, eval_of_constant? h, eval_ofSymbol]

end Polynomial

/-! ## Quantities -/

namespace Quantity

variable {ρ : Symbol → Int64} {a b : Quantity}

/-- The value of a quantity. -/
def eval (ρ : Symbol → Int64) (a : Quantity) : Int64 := a.poly.eval ρ

@[simp] theorem eval_const {c : Int64} : (const c).eval ρ = c := Polynomial.eval_const

@[simp] theorem eval_named {x : String} : (named x).eval ρ = ρ (.named x) :=
  Polynomial.eval_ofSymbol

@[simp] theorem eval_add : (a + b).eval ρ = a.eval ρ + b.eval ρ := Polynomial.eval_add

@[simp] theorem eval_sub : (a - b).eval ρ = a.eval ρ - b.eval ρ := Polynomial.eval_sub

theorem eval_mul_named {c : Int64} {x : String} (h : a.constant? = some c) :
    (a * named x).eval ρ = c * ρ (.named x) := Polynomial.eval_mul_ofSymbol h

theorem weigh_add {w : PowerProduct Symbol → Int64} :
    Polynomial.weigh w (a + b).poly.terms =
      Polynomial.weigh w a.poly.terms + Polynomial.weigh w b.poly.terms := Polynomial.weigh_add

theorem weigh_sub {w : PowerProduct Symbol → Int64} :
    Polynomial.weigh w (a - b).poly.terms =
      Polynomial.weigh w a.poly.terms - Polynomial.weigh w b.poly.terms := Polynomial.weigh_sub

theorem eval_of_constant? {c : Int64} (h : a.constant? = some c) : a.eval ρ = c :=
  Polynomial.eval_of_constant? h

/-- A quotient by one is the dividend. -/
theorem poly_div_one : (a / const 1).poly = a.poly := by
  have hsome : (a.poly.divExact? 1).isSome := by simp [Polynomial.divExact?, Nat.mod_one]
  obtain ⟨q, hq⟩ := Option.isSome_iff_exists.1 hsome
  have hdiv : (a / const 1).poly = q := by
    change (a.poly.divExact? 1).getD _ = q
    rw [hq, Option.getD_some]
  rw [hdiv, (Polynomial.eq_of_divExact? hq).1]
  simp only [Int64.div_one, List.map_id']

theorem surelyDiffers_congr {c : Quantity} (h : a == b) :
    a.surelyDiffers c = b.surelyDiffers c := by
  obtain ⟨p, _⟩ := a
  obtain ⟨q, _⟩ := b
  obtain rfl : p = q := beq_iff.1 h
  rfl

/-- What weighs the same does not surely differ, as the difference would be a constant. -/
theorem not_surelyDiffers_of_weigh_eq {w : PowerProduct Symbol → Int64} (hone : w .one = 1)
    (h : Polynomial.weigh w a.poly.terms = Polynomial.weigh w b.poly.terms) :
    a.surelyDiffers b = false := by
  unfold surelyDiffers
  split
  · rename_i d hd
    have hdiff := Polynomial.weigh_of_constant? hd (w := w)
    rw [weigh_sub, h, Int64.sub_self, hone, Int64.mul_one] at hdiff
    simp [← hdiff]
  · rfl

theorem not_surelyDiffers_of_eval_eq (h : a.eval ρ = b.eval ρ) : a.surelyDiffers b = false := by
  refine not_surelyDiffers_of_weigh_eq (PowerProduct.eval_one (ρ := ρ)) ?_
  rwa [← Polynomial.evalTerms_eq_weigh, ← Polynomial.evalTerms_eq_weigh]

theorem not_surelyDiffers_of_eq (h : a.poly = b.poly) : a.surelyDiffers b = false :=
  not_surelyDiffers_of_eval_eq (congrArg (Polynomial.eval fun _ => 0) h)

end Quantity

end QuantumLowering
