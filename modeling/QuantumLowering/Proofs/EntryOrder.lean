/-
  The order of polynomials over an ordered alphabet.

  * `compareEntry key val`: the order by key and, at the same key, by value.
  * `PowerProduct.compare_eq_compareLex`, `Polynomial.compare_eq_compareLex`: power products and
    polynomials are compared like lists of such entries.  Their order is linear if that of the
    alphabet is, by the instances of `Std.TransOrd` and `Std.LawfulEqOrd`.
-/
import QuantumLowering.Polynomial.Basic

namespace QuantumLowering

/-! ## Entries -/

section
variable {α κ V : Type} [Ord κ] [Ord V] {key : α → κ} {val : α → V}

/-- Entries are compared by key, and at the same key by value. -/
def compareEntry (key : α → κ) (val : α → V) : α → α → Ordering :=
  compareLex (compareOn key) (compareOn val)

instance [Std.OrientedOrd κ] [Std.OrientedOrd V] : Std.OrientedCmp (compareEntry key val) :=
  inferInstanceAs (Std.OrientedCmp (compareLex _ _))

instance [Std.TransOrd κ] [Std.TransOrd V] : Std.TransCmp (compareEntry key val) :=
  inferInstanceAs (Std.TransCmp (compareLex _ _))

/-- Only equal entries compare equal, if key and value make up the entry. -/
theorem lawfulEqCmp_compareEntry [Std.LawfulEqOrd κ] [Std.LawfulEqOrd V]
    (h : ∀ {a b : α}, key a = key b → val a = val b → a = b) :
    Std.LawfulEqCmp (compareEntry key val) where
  compare_self := compareLex_eq_eq.2 ⟨Std.ReflCmp.compare_self, Std.ReflCmp.compare_self⟩
  eq_of_compare heq := by
    obtain ⟨hkey, hval⟩ := compareLex_eq_eq.1 heq
    exact h (Std.LawfulEqCmp.eq_of_compare hkey) (Std.LawfulEqCmp.eq_of_compare hval)

end

variable {σ : Type} [Ord σ]

/-! ## Power products -/

namespace PowerProduct

theorem compareFactors_eq_compareLex : ∀ m n : List (σ × UInt32),
    compareFactors m n = List.compareLex (compareEntry Prod.fst Prod.snd) m n
  | [], [] | [], _ :: _ | _ :: _, [] => rfl
  | (s, d) :: m, (t, e) :: n => by
    rw [compareFactors, compareFactors_eq_compareLex m n, List.compareLex_cons_cons,
      ← Ordering.then_assoc]
    rfl

/-- Power products are compared like lists of factors, a shorter list before those it begins. -/
theorem compare_eq_compareLex (m n : PowerProduct σ) :
    compare m n = List.compareLex (compareEntry Prod.fst Prod.snd) m.factors n.factors :=
  compareFactors_eq_compareLex ..

instance [Std.OrientedOrd σ] : Std.OrientedOrd (PowerProduct σ) where
  eq_swap := by
    simp only [compare_eq_compareLex]
    exact Std.OrientedCmp.eq_swap

instance [Std.TransOrd σ] : Std.TransOrd (PowerProduct σ) where
  isLE_trans := by
    simp only [compare_eq_compareLex]
    exact Std.TransCmp.isLE_trans

variable [Std.LawfulEqOrd σ]

instance : Std.LawfulEqCmp (compareEntry (Prod.fst : σ × UInt32 → σ) Prod.snd) :=
  lawfulEqCmp_compareEntry Prod.ext

instance : Std.LawfulEqOrd (PowerProduct σ) where
  compare_self {m} := by
    rw [compare_eq_compareLex]
    exact Std.ReflCmp.compare_self
  eq_of_compare {m n} h := by
    rw [compare_eq_compareLex] at h
    cases m
    exact congrArg _ (Std.LawfulEqCmp.eq_of_compare h)

end PowerProduct

/-! ## Polynomials -/

omit [Ord σ] in
theorem Monomial.ext {s t : Monomial σ} (hpowers : s.powers = t.powers)
    (hcoefficient : s.coefficient = t.coefficient) : s = t := by
  cases s; cases t; simp_all

namespace Polynomial

theorem compareTerms_eq_compareLex : ∀ ts us : List (Monomial σ), compareTerms ts us =
    List.compareLex (compareEntry Monomial.powers Monomial.coefficient) ts us
  | [], [] | [], _ :: _ | _ :: _, [] => rfl
  | t :: ts, u :: us => by
    rw [compareTerms, compareTerms_eq_compareLex ts us, List.compareLex_cons_cons,
      ← Ordering.then_assoc]
    rfl

/-- Polynomials are compared like lists of terms. -/
theorem compare_eq_compareLex (p q : Polynomial σ) : compare p q =
    List.compareLex (compareEntry Monomial.powers Monomial.coefficient) p.terms q.terms :=
  compareTerms_eq_compareLex ..

instance [Std.OrientedOrd σ] : Std.OrientedOrd (Polynomial σ) where
  eq_swap := by
    simp only [compare_eq_compareLex]
    exact Std.OrientedCmp.eq_swap

instance [Std.TransOrd σ] : Std.TransOrd (Polynomial σ) where
  isLE_trans := by
    simp only [compare_eq_compareLex]
    exact Std.TransCmp.isLE_trans

variable [Std.LawfulEqOrd σ]

instance : Std.LawfulEqCmp (compareEntry (Monomial.powers : Monomial σ → _) Monomial.coefficient) :=
  lawfulEqCmp_compareEntry Monomial.ext

instance : Std.LawfulEqOrd (Polynomial σ) where
  compare_self {p} := by
    rw [compare_eq_compareLex]
    exact Std.ReflCmp.compare_self
  eq_of_compare {p q} h := by
    rw [compare_eq_compareLex] at h
    cases p
    exact congrArg _ (Std.LawfulEqCmp.eq_of_compare h)

end Polynomial

end QuantumLowering
