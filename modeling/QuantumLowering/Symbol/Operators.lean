/-
  The integer operators on polynomials, and substitution.

  * `BinOp.fold?`: the value of an operator on two constants, where it is defined.
  * `BinOp.apply`: folds where the result is known exactly and keeps a symbolic operation
    otherwise.  Division folds when the divisor is a constant that divides every
    coefficient, powers when the exponent is a constant that fits in 32 bits, and the
    other operators when both operands are constants.
  * `Polynomial.subst`: replaces an unknown at every depth and applies every operator again.
-/
import QuantumLowering.Symbol.Basic

namespace QuantumLowering

namespace BinOp

/-- The mark written between the operands. -/
def token : BinOp → String
  | .div => "/"
  | .mod => "%"
  | .and => "&"
  | .or => "|"
  | .xor => "^"
  | .shl => "<<"
  | .shr => ">>"
  | .lshr => ">>>"
  | .pow => "**"

/-- The value of a left shift by less than 63 places that keeps every bit. -/
def shiftLeft? (a b : Int64) : Option Int64 :=
  if 0 ≤ b ∧ b < 63 then
    let product := a.toInt <<< b.toInt.toNat
    if Int64.minValue.toInt ≤ product ∧ product ≤ Int64.maxValue.toInt then
      some (Int64.ofInt product)
    else none
  else none

/-- The value of an operator on constants: remainders of a non-negative number by a positive
    one, the bitwise operators, and shifts by amounts below the word size that lose nothing. -/
def fold? (op : BinOp) (a b : Int64) : Option Int64 :=
  match op with
  | .div => none
  | .mod => if 0 ≤ a ∧ 0 < b then some (a % b) else none
  | .and => some (a &&& b)
  | .or => some (a ||| b)
  | .xor => some (a ^^^ b)
  | .shl => shiftLeft? a b
  | .shr => if 0 ≤ b ∧ b < 64 then some (a >>> b) else none
  | .lshr => if 0 ≤ a ∧ 0 ≤ b ∧ b < 64 then some (a >>> b) else none
  | .pow => none

/-- The exponent denoted by a constant polynomial, when it fits in 32 bits. -/
def exponent? (p : Poly) : Option Nat :=
  p.constant?.bind fun e => if 0 ≤ e ∧ e < 4294967296 then some e.toInt.toNat else none

/-- What an operator folds to, if it folds. -/
def result? (op : BinOp) (p q : Poly) : Option Poly :=
  match op with
  | .div => q.constant?.bind p.divExact?
  | .pow => (exponent? q).map p.pow
  | _ => p.constant?.bind fun a => q.constant?.bind fun b => (op.fold? a b).map .const

/-- Applies an operator, folding where the result is known. -/
def apply (op : BinOp) (p q : Poly) : Poly :=
  (op.result? p q).getD (.ofSymbol (.binary op p q))

end BinOp

namespace Symbol

/-! ## Substitution -/

mutual
/-- Replaces the unknown `x` by `v` in a symbol. -/
def subst (x : String) (v : Poly) : Symbol → Poly
  | .named n => if n = x then v else Polynomial.named n
  | .binary op p q => op.apply (substPoly x v p) (substPoly x v q)
  | .call f args => Polynomial.call f (substArgs x v args)

/-- `subst` on polynomials. -/
def substPoly (x : String) (v : Poly) : Polynomial Symbol → Poly
  | ⟨ts⟩ => substTerms x v ts

/-- `subst` on lists of terms: the sum of the substituted terms. -/
def substTerms (x : String) (v : Poly) : List (Monomial Symbol) → Poly
  | [] => .zero
  | ⟨⟨m⟩, c⟩ :: ts => substFactors x v (.const c) m + substTerms x v ts

/-- `subst` on lists of factors: multiplies by the substituted powers, one after another. -/
def substFactors (x : String) (v : Poly) (acc : Poly) : List (Symbol × UInt32) → Poly
  | [] => acc
  | (s, e) :: m => substFactors x v (acc * (subst x v s).pow e.toNat) m

/-- `subst` on argument lists. -/
def substArgs (x : String) (v : Poly) : List (Polynomial Symbol) → List Poly
  | [] => []
  | p :: ps => substPoly x v p :: substArgs x v ps
end

end Symbol

/-- Replaces the unknown `x` by `v` at every depth. -/
def Polynomial.subst (p : Poly) (x : String) (v : Poly) : Poly := Symbol.substPoly x v p

end QuantumLowering
