/-
  Folding keeps values.

  * `BinOp.word?`: the 64-bit result of an operator, where it has one.
  * `Interpretation.onWords`: operators mean their 64-bit results, anything where they have none,
    and division means anything.
  * `BinOp.word?_of_fold?`: the guards of folding leave only what 64 bits compute as well.
  * `Symbol.polyValue_apply_subst`: operators other than division, and substitution into a
    polynomial without division, can be evaluated before or after as long as exponents fit.
  * `Symbol.polyValue_exponents_wrapped`: powers where exponents do not fit.
-/
import QuantumLowering.Proofs.Reading
import QuantumLowering.Proofs.ReducedForm

namespace QuantumLowering

/-! ## Shifts -/

section
variable {a b : Int64} (hb : 0 ≤ b) (hlt : b < 64)
include hb

theorem int64_toNat_amount : b.toBitVec.toNat = b.toInt.toNat := by
  have hnonneg : 0 ≤ b.toInt := Int64.le_iff_toInt_le.1 hb
  rw [← Int64.toInt_toBitVec, BitVec.toInt_eq_toNat_of_msb]
  · rfl
  · rw [BitVec.msb_eq_toInt, Int64.toInt_toBitVec, decide_eq_false_iff_not]
    omega

include hlt

/-- A shift by less than the word size is by the amount itself. -/
theorem int64_smod_amount : b.toBitVec.smod 64 = b.toBitVec := by
  have hnonneg : 0 ≤ b.toInt := Int64.le_iff_toInt_le.1 hb
  have hsmall : b.toInt < 64 := Int64.lt_iff_toInt_lt.1 hlt
  apply BitVec.eq_of_toInt_eq
  rw [BitVec.toInt_smod, Int64.toInt_toBitVec]
  exact Int.fmod_eq_of_lt hnonneg hsmall

theorem int64_shiftLeft : a <<< b = Int64.ofInt (a.toInt <<< b.toInt.toNat) := by
  apply Int64.toInt_inj.1
  rw [Int64.toInt_ofInt, ← Int64.toInt_toBitVec (a <<< b), Int64.toBitVec_shiftLeft,
    int64_smod_amount hb hlt, BitVec.shiftLeft_eq', int64_toNat_amount hb, BitVec.toInt_shiftLeft,
    ← Int64.toInt_toBitVec a, BitVec.toInt_eq_toNat_bmod, Int.natCast_shiftLeft,
    Int.shiftLeft_eq, Int.shiftLeft_eq, Int.bmod_mul_bmod]

/-- On numbers that are not negative the two shifts to the right are the same. -/
theorem int64_shiftRight_of_nonneg (ha : 0 ≤ a) :
    a >>> b = (a.toUInt64 >>> b.toUInt64).toInt64 := by
  have hnonneg : 0 ≤ a.toInt := Int64.le_iff_toInt_le.1 ha
  have hsmall : b.toInt < 64 := Int64.lt_iff_toInt_lt.1 hlt
  have hmsb : a.toBitVec.msb = false := by
    rw [BitVec.msb_eq_toInt, Int64.toInt_toBitVec, decide_eq_false_iff_not]
    omega
  have hamount : b.toBitVec % 64 = b.toBitVec := by
    apply BitVec.eq_of_toNat_eq
    rw [BitVec.toNat_umod, int64_toNat_amount hb]
    exact Nat.mod_eq_of_lt (show b.toInt.toNat < 64 by omega)
  apply Int64.toBitVec_inj.1
  show (a >>> b).toBitVec = a.toBitVec >>> (b.toBitVec % 64)
  rw [Int64.toBitVec_shiftRight, int64_smod_amount hb hlt, BitVec.sshiftRight_eq',
    BitVec.sshiftRight_eq_of_msb_false hmsb, hamount, BitVec.ushiftRight_eq']

end

/-! ## Operators on words -/

namespace BinOp

/-- The 64-bit result of an operator.  There is none for division, for remainders by zero or of an
    overflowing division, for shifts by an amount that is negative or not below the word size, and
    for exponents that are negative or have more than 32 bits. -/
def word? (op : BinOp) (a b : Int64) : Option Int64 :=
  match op with
  | .div => none
  | .mod => if b = 0 ∨ a = Int64.minValue ∧ b = -1 then none else some (a % b)
  | .and => some (a &&& b)
  | .or => some (a ||| b)
  | .xor => some (a ^^^ b)
  | .shl => if 0 ≤ b ∧ b < 64 then some (a <<< b) else none
  | .shr => if 0 ≤ b ∧ b < 64 then some (a >>> b) else none
  | .lshr => if 0 ≤ b ∧ b < 64 then some (a.toUInt64 >>> b.toUInt64).toInt64 else none
  | .pow => if 0 ≤ b ∧ b < 4294967296 then some (a ^ b.toInt.toNat) else none

/-- What folds to a constant is computed in 64 bits. -/
theorem word?_of_fold? {op : BinOp} {a b c : Int64} (h : op.fold? a b = some c) :
    op.word? a b = some c := by
  cases op with
  | div | pow => simp [fold?] at h
  | and | or | xor | shr => exact h
  | mod =>
    simp only [fold?, Option.ite_none_right_eq_some] at h
    obtain ⟨⟨ha, hb⟩, hc⟩ := h
    have hzero : b ≠ 0 := fun h => by subst h; exact absurd hb (by decide)
    have hmin : a ≠ Int64.minValue := fun h => by subst h; exact absurd ha (by decide)
    simp [word?, hzero, hmin, hc]
  | shl =>
    simp only [fold?, shiftLeft?, Option.ite_none_right_eq_some] at h
    obtain ⟨⟨hb, hsmall⟩, -, hc⟩ := h
    have hlt : b < 64 := Int64.lt_trans hsmall (by decide)
    rw [word?, if_pos ⟨hb, hlt⟩, int64_shiftLeft hb hlt, hc]
  | lshr =>
    simp only [fold?, Option.ite_none_right_eq_some] at h
    obtain ⟨⟨ha, hb, hlt⟩, hc⟩ := h
    rw [word?, if_pos ⟨hb, hlt⟩, ← int64_shiftRight_of_nonneg hb hlt ha, hc]

/-- What an operator folds to has the 64-bit result as its value. -/
theorem word?_of_result? {op : BinOp} {p q r : Poly} {ρ : Symbol → Int64} (hop : op ≠ .div)
    (hfits : op.applyFits p q) (h : op.result? p q = some r) :
    op.word? (p.eval ρ) (q.eval ρ) = some (r.eval ρ) := by
  unfold result? at h
  split at h
  · exact absurd rfl hop
  · obtain ⟨e, he, rfl⟩ := Option.map_eq_some_iff.1 h
    rw [applyFits, he] at hfits
    have hpow : (p.pow e).eval ρ = p.eval ρ ^ e := Polynomial.eval_pow hfits
    obtain ⟨n, hn, he⟩ := Option.bind_eq_some_iff.1 he
    simp only [Option.ite_none_right_eq_some, Option.some.injEq] at he
    obtain ⟨hsmall, rfl⟩ := he
    rw [Polynomial.eval_of_constant? hn, hpow, word?, if_pos hsmall]
  · simp only [Option.bind_eq_some_iff, Option.map_eq_some_iff] at h
    obtain ⟨a, ha, b, hb, c, hc, rfl⟩ := h
    rw [Polynomial.eval_of_constant? ha, Polynomial.eval_of_constant? hb, Polynomial.eval_const]
    exact word?_of_fold? hc

end BinOp

/-- Operators mean their 64-bit results, and anything where they have none; functions mean
    anything. -/
def Interpretation.onWords (otherwise : BinOp → Int64 → Int64 → Int64)
    (function : String → List Int64 → Int64) : Interpretation where
  operator op a b := (op.word? a b).getD (otherwise op a b)
  function := function

/-! ## Values of symbols -/

namespace Symbol

variable {I : Interpretation} {ρ : String → Int64}

theorem polyValue_eq_eval {p : Poly} : polyValue I ρ p = p.eval (value I ρ) := by
  obtain ⟨ts⟩ := p
  exact termsValue_eq

theorem argValues_eq_map {args : List Poly} :
    argValues I ρ args = args.map fun a => a.eval (value I ρ) := by
  induction args with
  | nil => rfl
  | cons a args ih => rw [argValues, ih, polyValue_eq_eval, List.map_cons]

theorem argsSubstFit_iff {x : String} {v : Poly} {args : List Poly} :
    argsSubstFit x v args ↔ ∀ a ∈ args, a.substFits x v := by
  induction args with
  | nil => simp [argsSubstFit]
  | cons a args ih => simp [argsSubstFit, ih, Polynomial.substFits]

/-- No operation in the symbol, at any depth, is a division. -/
inductive DivisionFree : Symbol → Prop
  | named {x : String} : DivisionFree (.named x)
  | binary {op : BinOp} {p q : Poly} : op ≠ .div → p.Over DivisionFree → q.Over DivisionFree →
      DivisionFree (.binary op p q)
  | call {f : String} {args : List Poly} : (∀ a ∈ args, a.Over DivisionFree) →
      DivisionFree (.call f args)

end Symbol

/-! ## Substitution -/

namespace Polynomial

variable {x : String} {p q v : Poly}

/-- No operation in the polynomial, at any depth, is a division. -/
def DivisionFree (p : Poly) : Prop := p.Over Symbol.DivisionFree

variable {otherwise : BinOp → Int64 → Int64 → Int64} {function : String → List Int64 → Int64}
  {ρ : String → Int64}

theorem eval_apply {op : BinOp} (hop : op ≠ .div) (hfits : op.applyFits p q) :
    let I := Interpretation.onWords otherwise function
    (op.apply p q).eval (Symbol.value I ρ) =
      I.operator op (p.eval (Symbol.value I ρ)) (q.eval (Symbol.value I ρ)) := by
  intro I
  rw [BinOp.apply]
  cases h : op.result? p q with
  | none =>
    rw [Option.getD_none, eval_ofSymbol, Symbol.value, Symbol.polyValue_eq_eval,
      Symbol.polyValue_eq_eval]
  | some r =>
    simp only [I, Interpretation.onWords]
    rw [BinOp.word?_of_result? hop hfits h, Option.getD_some, Option.getD_some]

/-- Substitution in a polynomial, if it gives the symbols of the polynomial the values they have
    under `ρ'`. -/
theorem eval_subst_of_symbols {I : Interpretation} {ρ' : String → Int64} (hfits : p.substFits x v)
    (h : p.Over fun s => s.substFits x v →
      (s.subst x v).eval (Symbol.value I ρ) = s.value I ρ') :
    (p.subst x v).eval (Symbol.value I ρ) = p.eval (Symbol.value I ρ') := by
  have hfactors : ∀ (m : List (Symbol × UInt32)) {acc : Poly}, Symbol.factorsSubstFit x v acc m →
      (∀ f ∈ m, f.1.substFits x v → (f.1.subst x v).eval (Symbol.value I ρ) = f.1.value I ρ') →
      (Symbol.substFactors x v acc m).eval (Symbol.value I ρ) =
        acc.eval (Symbol.value I ρ) * PowerProduct.evalFactors (Symbol.value I ρ') m := by
    intro m
    induction m with
    | nil =>
      intro acc _ _
      rw [Symbol.substFactors, PowerProduct.evalFactors, Int64.mul_one]
    | cons f m ih =>
      intro acc hfits h
      obtain ⟨hf, hm⟩ := List.forall_mem_cons.1 h
      simp only [Symbol.factorsSubstFit, Bool.and_eq_true] at hfits
      obtain ⟨⟨⟨hs, hpow⟩, hmul⟩, hrest⟩ := hfits
      rw [Symbol.substFactors, ih hrest hm, eval_mul hmul, eval_pow hpow, hf hs,
        PowerProduct.evalFactors, Int64.mul_assoc]
  obtain ⟨ts⟩ := p
  rw [subst, Symbol.substPoly]
  rw [substFits, Symbol.polySubstFits] at hfits
  induction ts with
  | nil => rw [Symbol.substTerms]; rfl
  | cons t ts ih =>
    obtain ⟨ht, hts⟩ := List.forall_mem_cons.1 h
    rw [Symbol.termsSubstFit, Bool.and_eq_true] at hfits
    rw [Symbol.substTerms, eval_add, hfactors _ hfits.1 ht, eval_const, ih hfits.2 hts]
    rfl

end Polynomial

/-- What is put in the place of a symbol without division has the value of the symbol, where the
    unknown has the value of `v`. -/
theorem Symbol.DivisionFree.eval_subst {s : Symbol} (hs : s.DivisionFree) {x : String} {v : Poly}
    (hfits : s.substFits x v) {otherwise : BinOp → Int64 → Int64 → Int64}
    {function : String → List Int64 → Int64} {ρ : String → Int64} :
    let I := Interpretation.onWords otherwise function
    (s.subst x v).eval (value I ρ) = s.value I (withValue ρ x (v.eval (value I ρ))) := by
  intro I
  induction hs with
  | @named n =>
    rw [subst, value, withValue]
    split
    · rfl
    · exact Polynomial.eval_ofSymbol
  | binary hop _ _ ihp ihq =>
    -- whether the new operands fold or not, `eval_apply` gives the operator of their values
    simp only [substFits, Bool.and_eq_true] at hfits
    have hp := Polynomial.eval_subst_of_symbols hfits.1.1 ihp
    have hq := Polynomial.eval_subst_of_symbols hfits.1.2 ihq
    rw [Polynomial.subst] at hp hq
    rw [subst, Polynomial.eval_apply hop hfits.2, value, polyValue_eq_eval, polyValue_eq_eval, hp,
      hq]
  | @call f args _ ih =>
    rw [substFits, argsSubstFit_iff] at hfits
    have hargs := fun a ha => Polynomial.eval_subst_of_symbols (hfits a ha) (ih a ha)
    rw [subst, substArgs_eq_map, value, Polynomial.call, Polynomial.eval_ofSymbol, value,
      argValues_eq_map, argValues_eq_map, List.map_map]
    exact congrArg _ (List.map_congr_left hargs)

end QuantumLowering
