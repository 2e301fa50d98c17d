/-
  The alphabet of the polynomials: unknowns, operations that stay symbolic, and calls.

  * `BinOp`: the operators besides the ring operations.
  * `Symbol`: an unknown, an operator applied to two polynomials, or a call.
  * `Symbol.compare`: unknowns, then operations, then calls; each kind by its parts from the left.
  * `Poly`: the polynomials over these symbols.
  * `Polynomial.mentions`: whether an unknown occurs at any depth.
-/
import QuantumLowering.Polynomial.Basic

namespace QuantumLowering

/-- Integer operators that may stay symbolic, in their order of comparison. -/
inductive BinOp
  | div
  | mod
  | and
  | or
  | xor
  | shl
  | shr
  /-- Shift right that fills with zeros. -/
  | lshr
  | pow
deriving DecidableEq, Repr, Ord

/-- What a polynomial is made of. -/
inductive Symbol
  /-- An unknown. -/
  | named (name : String)
  /-- An operation that does not fold. -/
  | binary (op : BinOp) (lhs rhs : Polynomial Symbol)
  /-- A call of an integer function. -/
  | call (function : String) (args : List (Polynomial Symbol))

/-- Integer polynomials with symbolic operations. -/
abbrev Poly := Polynomial Symbol

namespace Symbol

/-! ## Order -/

mutual
/-- Unknowns come before operations and operations before calls; within a kind the parts
    are compared from the left. -/
def compare : Symbol → Symbol → Ordering
  | .named a, .named b => Ord.compare a b
  | .named _, _ => .lt
  | _, .named _ => .gt
  | .binary o p q, .binary o' p' q' =>
    (Ord.compare o o').then ((comparePoly p p').then (comparePoly q q'))
  | .binary .., .call .. => .lt
  | .call .., .binary .. => .gt
  | .call f ps, .call g qs => (Ord.compare f g).then (compareArgs ps qs)

/-- `compare` on polynomials. -/
def comparePoly : Polynomial Symbol → Polynomial Symbol → Ordering
  | ⟨ts⟩, ⟨us⟩ => compareTerms ts us

/-- `compare` on sorted lists of terms. -/
def compareTerms : List (Monomial Symbol) → List (Monomial Symbol) → Ordering
  | [], [] => .eq
  | [], _ :: _ => .lt
  | _ :: _, [] => .gt
  | ⟨⟨m⟩, c⟩ :: ts, ⟨⟨n⟩, d⟩ :: us =>
    (compareFactors m n).then ((Ord.compare c d).then (compareTerms ts us))

/-- `compare` on sorted lists of factors. -/
def compareFactors : List (Symbol × UInt32) → List (Symbol × UInt32) → Ordering
  | [], [] => .eq
  | [], _ :: _ => .lt
  | _ :: _, [] => .gt
  | (s, d) :: m, (t, e) :: n =>
    (compare s t).then ((Ord.compare d e).then (compareFactors m n))

/-- `compare` on argument lists. -/
def compareArgs : List (Polynomial Symbol) → List (Polynomial Symbol) → Ordering
  | [], [] => .eq
  | [], _ :: _ => .lt
  | _ :: _, [] => .gt
  | p :: ps, q :: qs => (comparePoly p q).then (compareArgs ps qs)
end

instance : Ord Symbol := ⟨compare⟩

instance : BEq Symbol := ⟨fun s t => s.compare t == .eq⟩

/-! ## Unknowns -/

mutual
/-- Whether the unknown `x` occurs in a symbol, at any depth. -/
def mentions (x : String) : Symbol → Bool
  | .named n => n == x
  | .binary _ p q => polyMentions x p || polyMentions x q
  | .call _ args => argsMention x args

/-- `mentions` on polynomials. -/
def polyMentions (x : String) : Polynomial Symbol → Bool
  | ⟨ts⟩ => termsMention x ts

/-- `mentions` on lists of terms. -/
def termsMention (x : String) : List (Monomial Symbol) → Bool
  | [] => false
  | ⟨⟨m⟩, _⟩ :: ts => factorsMention x m || termsMention x ts

/-- `mentions` on lists of factors. -/
def factorsMention (x : String) : List (Symbol × UInt32) → Bool
  | [] => false
  | (s, _) :: m => mentions x s || factorsMention x m

/-- `mentions` on argument lists. -/
def argsMention (x : String) : List (Polynomial Symbol) → Bool
  | [] => false
  | p :: ps => polyMentions x p || argsMention x ps
end

end Symbol

namespace Polynomial

instance : BEq Poly := ⟨fun p q => Symbol.comparePoly p q == .eq⟩

/-- Whether the unknown `x` occurs in a polynomial, at any depth. -/
def mentions (p : Poly) (x : String) : Bool := Symbol.polyMentions x p

/-- A single unknown. -/
def named (x : String) : Poly := .ofSymbol (.named x)

/-- A call of an integer function. -/
def call (function : String) (args : List Poly) : Poly := .ofSymbol (.call function args)

end Polynomial

end QuantumLowering
