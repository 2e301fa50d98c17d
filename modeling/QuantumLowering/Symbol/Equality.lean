/-
  Equality of symbols and polynomials.

  * `Symbol.compare_eq_iff`: only equal symbols compare equal, at any depth.
  * `Poly` has a lawful equality test, the one read off the order.
-/
import QuantumLowering.Symbol.Basic

namespace QuantumLowering

/-- Only equal operators compare equal. -/
theorem BinOp.compare_eq_iff {o o' : BinOp} : compare o o' = .eq ↔ o = o' := by
  cases o <;> cases o' <;> decide

namespace Symbol

mutual
/-- Only equal symbols compare equal. -/
theorem compare_eq_iff : ∀ {s t : Symbol}, s.compare t = .eq ↔ s = t
  | .named _, .named _ => by simp [compare]
  | .named _, .binary .. | .named _, .call .. | .binary .., .named _ | .call .., .named _
  | .binary .., .call .. | .call .., .binary .. => by simp [compare]
  | .binary _ p q, .binary .. => by
    simp [compare, Ordering.then_eq_eq, BinOp.compare_eq_iff, comparePoly_eq_iff (p := p),
      comparePoly_eq_iff (p := q)]
  | .call _ ps, .call .. => by
    simp [compare, Ordering.then_eq_eq, compareArgs_eq_iff (a := ps)]

/-- `compare_eq_iff` on polynomials. -/
theorem comparePoly_eq_iff : ∀ {p q : Polynomial Symbol}, comparePoly p q = .eq ↔ p = q
  | ⟨ts⟩, ⟨_⟩ => by simp [comparePoly, compareTerms_eq_iff (t := ts)]

/-- `compare_eq_iff` on lists of terms. -/
theorem compareTerms_eq_iff :
    ∀ {t u : List (Monomial Symbol)}, compareTerms t u = .eq ↔ t = u
  | [], [] | [], _ :: _ | _ :: _, [] => by simp [compareTerms]
  | ⟨⟨m⟩, _⟩ :: ts, ⟨⟨_⟩, _⟩ :: _ => by
    simp [compareTerms, Ordering.then_eq_eq, compareFactors_eq_iff (m := m),
      compareTerms_eq_iff (t := ts), and_assoc]

/-- `compare_eq_iff` on lists of factors. -/
theorem compareFactors_eq_iff :
    ∀ {m n : List (Symbol × UInt32)}, compareFactors m n = .eq ↔ m = n
  | [], [] | [], _ :: _ | _ :: _, [] => by simp [compareFactors]
  | (s, _) :: m, (_, _) :: _ => by
    simp [compareFactors, Ordering.then_eq_eq, compare_eq_iff (s := s),
      compareFactors_eq_iff (m := m), and_assoc]

/-- `compare_eq_iff` on argument lists. -/
theorem compareArgs_eq_iff :
    ∀ {a b : List (Polynomial Symbol)}, compareArgs a b = .eq ↔ a = b
  | [], [] | [], _ :: _ | _ :: _, [] => by simp [compareArgs]
  | p :: ps, _ :: _ => by
    simp [compareArgs, Ordering.then_eq_eq, comparePoly_eq_iff (p := p),
      compareArgs_eq_iff (a := ps)]
end

end Symbol

instance : Std.LawfulEqOrd Symbol where
  eq_of_compare h := Symbol.compare_eq_iff.1 h
  compare_self := Symbol.compare_eq_iff.2 rfl

instance : LawfulBEq Poly where
  eq_of_beq h := Symbol.comparePoly_eq_iff.1 (by simpa [BEq.beq] using h)
  rfl := by simp [BEq.beq, Symbol.comparePoly_eq_iff]

end QuantumLowering
