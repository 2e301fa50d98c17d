/-
  Conditions that are decided before the unknowns have values.

  * `Quantity.exact`: the value of a quantity as an integer; in 64 bits it is the value of the
    quantity.
  * `Condition.eval`: the truth value of a condition, where integers are compared as they are.
  * `Condition.Fits`, `Condition.OrdersFit`: the sides of all comparisons are 64-bit numbers, and so
    are the differences whose signs decide an order.
  * `Condition.value?_sound`: what is decided is so, for any values, if these differences fit; an
    order that is decided by a difference that does not fit is not so.
-/
import Mathlib.Algebra.Group.Int.Defs
import QuantumLowering.Classical.Condition
import QuantumLowering.Proofs.Resolution

namespace QuantumLowering

/-! ## Integer values -/

section
variable {σ : Type} {ρ : σ → Int64}

/-- The value of a list of factors as an integer. -/
def PowerProduct.exactFactors (ρ : σ → Int64) : List (σ × UInt32) → Int
  | [] => 1
  | (s, e) :: m => (ρ s).toInt ^ e.toNat * exactFactors ρ m

/-- The value of a list of terms as an integer. -/
def Polynomial.exactTerms (ρ : σ → Int64) : List (Monomial σ) → Int
  | [] => 0
  | t :: ts =>
    t.coefficient.toInt * PowerProduct.exactFactors ρ t.powers.factors + exactTerms ρ ts

theorem int64_ofInt_toInt_pow (v : Int64) (e : Nat) : Int64.ofInt (v.toInt ^ e) = v ^ e := by
  induction e with
  | zero => simp
  | succ e ih => rw [pow_succ, Int64.ofInt_mul, ih, Int64.ofInt_toInt, Int64.pow_succ]

theorem PowerProduct.ofInt_exactFactors {m : List (σ × UInt32)} :
    Int64.ofInt (exactFactors ρ m) = evalFactors ρ m := by
  induction m with
  | nil => rfl
  | cons f m ih =>
    obtain ⟨s, e⟩ := f
    rw [exactFactors, Int64.ofInt_mul, ih, int64_ofInt_toInt_pow, evalFactors]

theorem Polynomial.ofInt_exactTerms {ts : List (Monomial σ)} :
    Int64.ofInt (exactTerms ρ ts) = evalTerms ρ ts := by
  induction ts with
  | nil => rfl
  | cons t ts ih =>
    rw [exactTerms, Int64.ofInt_add, Int64.ofInt_mul, ih, PowerProduct.ofInt_exactFactors,
      Int64.ofInt_toInt, evalTerms_cons, Monomial.eval, PowerProduct.eval]

end

namespace Quantity

variable {I : Interpretation} {ρ : String → Int64} {a b : Quantity} {d : Int64}

/-- The value of a quantity as an integer.  The operands of operators and functions that stay
    symbolic are 64-bit numbers, and so are their results. -/
def exact (I : Interpretation) (ρ : String → Int64) (a : Quantity) : Int :=
  Polynomial.exactTerms (Symbol.value I ρ) a.poly.terms

theorem ofInt_exact : Int64.ofInt (a.exact I ρ) = a.value I ρ := by
  rw [value_eq_eval]
  exact Polynomial.ofInt_exactTerms

/-- A constant difference is the difference of the integers in 64 bits. -/
theorem eq_ofInt_of_constant?_sub (h : (a - b).constant? = some d) :
    d = Int64.ofInt (a.exact I ρ - b.exact I ρ) := by
  rw [Int64.ofInt_sub, ofInt_exact, ofInt_exact, value_eq_eval, value_eq_eval, ← eval_sub,
    eval_of_constant? h]

end Quantity

/-! ## Comparisons -/

namespace Comparison

/-- Whether two integers of any size stand in the relation. -/
def relates (r : Comparison) (y z : Int) : Bool :=
  match r with
  | eq => y == z
  | ne => y != z
  | lt => y < z
  | le => y ≤ z
  | gt => z < y
  | ge => z ≤ y

/-- Whether the relation is an order. -/
def isOrder : Comparison → Bool
  | eq | ne => false
  | lt | le | gt | ge => true

variable {r : Comparison} {y z : Int}

theorem holds_zero {d : Int64} : r.holds d 0 = r.relates d.toInt 0 := by
  rw [Bool.eq_iff_iff]
  cases r <;>
    simp [holds, relates, Int64.lt_iff_toInt_lt, Int64.le_iff_toInt_le, ← Int64.toInt_inj]

/-- The difference in 64 bits tells whether 64-bit numbers are equal, and also their order if it has
    not wrapped around: otherwise its sign is the wrong one. -/
theorem holds_sub_iff (hy : fits64 y) (hz : fits64 z) :
    r.relates y z = r.holds (Int64.ofInt (y - z)) 0 ↔ r.isOrder = false ∨ fits64 (y - z) := by
  obtain ⟨q, hq⟩ := dvd_sub_toInt_ofInt (y - z)
  have hd := fits64_toInt (Int64.ofInt (y - z))
  rw [holds_zero, Bool.eq_iff_iff]
  generalize (Int64.ofInt (y - z)).toInt = d at hq hd ⊢
  rw [fits64_iff] at hy hz hd ⊢
  -- the difference of 64-bit numbers wraps around at most once
  obtain rfl | rfl | rfl : q = -1 ∨ q = 0 ∨ q = 1 := by omega
  all_goals
    cases r <;> simp only [relates, isOrder, beq_iff_eq, bne_iff_ne, decide_eq_true_eq,
      Bool.true_eq_false, true_or, false_or, iff_true] <;> omega

end Comparison

/-! ## Conditions -/

namespace Condition

/-- The truth value, for values of the variables and unknowns and a meaning of the operators that
    stay symbolic. -/
def eval (I : Interpretation) (β : String → Bool) (ρ : String → Int64) : Condition → Bool
  | const b => b
  | var x => β x
  | not a => !a.eval I β ρ
  | and a b => a.eval I β ρ && b.eval I β ρ
  | or a b => a.eval I β ρ || b.eval I β ρ
  | compare r lhs rhs => r.relates (lhs.exact I ρ) (rhs.exact I ρ)

/-- All comparisons in a condition have a property. -/
def AllCompare (P : Comparison → Quantity → Quantity → Prop) : Condition → Prop
  | const _ | var _ => True
  | not a => a.AllCompare P
  | and a b | or a b => a.AllCompare P ∧ b.AllCompare P
  | compare r lhs rhs => P r lhs rhs

/-- The sides of all comparisons are 64-bit numbers. -/
def Fits (I : Interpretation) (ρ : String → Int64) (e : Condition) : Prop :=
  e.AllCompare fun _ lhs rhs => fits64 (lhs.exact I ρ) ∧ fits64 (rhs.exact I ρ)

/-- Differences that decide an order are 64-bit numbers. -/
def OrdersFit (I : Interpretation) (ρ : String → Int64) (e : Condition) : Prop :=
  e.AllCompare fun r lhs rhs =>
    r.isOrder → (lhs - rhs).isConstant → fits64 (lhs.exact I ρ - rhs.exact I ρ)

variable {I : Interpretation} {β : String → Bool} {ρ : String → Int64} {e : Condition}
variable {r : Comparison} {lhs rhs : Quantity} {b : Bool}

theorem and?_sound {x y : Option Bool} {p q : Bool} (hp : ∀ b, x = some b → p = b)
    (hq : ∀ b, y = some b → q = b) (h : and? x y = some b) : (p && q) = b := by
  rcases x with _ | _ | _ <;> rcases y with _ | _ | _ <;> simp_all [and?]

theorem or?_sound {x y : Option Bool} {p q : Bool} (hp : ∀ b, x = some b → p = b)
    (hq : ∀ b, y = some b → q = b) (h : or? x y = some b) : (p || q) = b := by
  rcases x with _ | _ | _ <;> rcases y with _ | _ | _ <;> simp_all [or?]

/-- A comparison that is decided is so if and only if equality is asked or the difference fits. -/
theorem eval_compare_iff (h : (compare r lhs rhs).value? = some b)
    (hfits : (compare r lhs rhs).Fits I ρ) :
    (compare r lhs rhs).eval I β ρ = b ↔
      r.isOrder = false ∨ fits64 (lhs.exact I ρ - rhs.exact I ρ) := by
  obtain ⟨d, hd, rfl⟩ := Option.map_eq_some_iff.1 h
  rw [Quantity.eq_ofInt_of_constant?_sub (I := I) (ρ := ρ) hd]
  exact Comparison.holds_sub_iff hfits.1 hfits.2

theorem eval_of_value? (h : e.value? = some b) (hfits : e.Fits I ρ) (horders : e.OrdersFit I ρ) :
    e.eval I β ρ = b := by
  induction e generalizing b with
  | const _ => exact Option.some.inj h
  | var _ => cases h
  | not a ih =>
    obtain ⟨c, hc, rfl⟩ := Option.map_eq_some_iff.1 h
    exact congrArg (!·) (ih hc hfits horders)
  | and a b iha ihb =>
    exact and?_sound (fun _ ha => iha ha hfits.1 horders.1) (fun _ hb => ihb hb hfits.2 horders.2) h
  | or a b iha ihb =>
    exact or?_sound (fun _ ha => iha ha hfits.1 horders.1) (fun _ hb => ihb hb hfits.2 horders.2) h
  | compare r lhs rhs =>
    refine (eval_compare_iff h hfits).2 ?_
    by_cases hr : r.isOrder
    · obtain ⟨d, hd, -⟩ := Option.map_eq_some_iff.1 h
      exact .inr (horders hr (Quantity.isConstant_of_constant? hd))
    · exact .inl (Bool.eq_false_iff.2 hr)

/-- **What is decided about a condition is so**, whatever the values of variables and unknowns and
    the meaning of symbolic operators are, if the sides of comparisons are 64-bit numbers and the
    differences that decide an order are.  A single comparison that is decided is so if and only if
    equality is asked or the difference fits. -/
theorem value?_sound (h : e.value? = some b) (hfits : e.Fits I ρ) :
    (e.OrdersFit I ρ → e.eval I β ρ = b) ∧
      ∀ r lhs rhs, e = compare r lhs rhs →
        (e.eval I β ρ = b ↔ r.isOrder = false ∨ fits64 (lhs.exact I ρ - rhs.exact I ρ)) := by
  refine ⟨eval_of_value? h hfits, ?_⟩
  rintro r lhs rhs rfl
  exact eval_compare_iff h hfits

/-- An unknown is less than its successor, or a variable is true. -/
def growing : Condition := or (compare .lt (.named "n") (.named "n" + .const 1)) (var "flag")

/-- A meaning of the symbolic operators, which do not occur in the condition. -/
def firstOperand : Interpretation := ⟨fun _ a _ => a, fun _ _ => 0⟩

/-- With 41 for the unknown the successor is 42. -/
theorem value?_sound_growing :
    growing.value? = some true ∧ growing.Fits firstOperand (fun _ => 41) ∧
      growing.OrdersFit firstOperand (fun _ => 41) ∧
      growing.eval firstOperand (fun _ => false) (fun _ => 41) = true := by
  have hn : (Quantity.named "n").exact firstOperand (fun _ => 41) = 41 := rfl
  have hsucc : (Quantity.named "n" + .const 1).exact firstOperand (fun _ => 41) = 42 := rfl
  have hvalue : growing.value? = some true := by decide +kernel
  have hfits : growing.Fits firstOperand fun _ => 41 := by
    simp [growing, Fits, AllCompare, hn, hsucc, fits64_iff]
  have horders : growing.OrdersFit firstOperand fun _ => 41 := by
    simp [growing, OrdersFit, AllCompare, hn, hsucc, fits64_iff]
  exact ⟨hvalue, hfits, horders, (value?_sound hvalue hfits).1 horders⟩

/-- Two constants that are further apart than 64-bit numbers can tell. -/
def farApart : Condition := compare .lt (.const Int64.maxValue) (.const (-1))

/-- The greatest number is decided to be less than `-1`. -/
theorem value?_farApart : farApart.value? = some true ∧
    ∀ I β ρ, farApart.Fits I ρ ∧ farApart.eval I β ρ = false := by
  refine ⟨rfl, fun I β ρ => ?_⟩
  have hmax : (Quantity.const Int64.maxValue).exact I ρ = 9223372036854775807 := rfl
  have hminus : (Quantity.const (-1)).exact I ρ = -1 := rfl
  constructor
  · simp [farApart, Fits, AllCompare, hmax, hminus, fits64_iff]
  · simp [farApart, eval, Comparison.relates, hmax, hminus]

end Condition

end QuantumLowering
