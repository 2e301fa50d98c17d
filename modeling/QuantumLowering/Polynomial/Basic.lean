/-
  Sparse polynomials over an ordered alphabet, with 64-bit coefficients and 32-bit exponents.

  * `PowerProduct σ`: a product of powers, its symbols ascending.
  * `Monomial σ`: a coefficient times a power product.
  * `Polynomial σ`: a sum of monomials, ascending by power product, no coefficient zero.
  * `Polynomial.addTerms`: merges two sums; `Polynomial.sumTerms` merges many monomials.
  * `Polynomial.divExact?`: division by a constant that divides every coefficient.

  Coefficients wrap around, so the polynomials over `σ` form a commutative
  ring of characteristic `2 ^ 64`.  Exponents wrap around as well: in a product
  whose exponents leave their 32 bits a symbol may end up with exponent zero.
  The alphabet is a parameter: symbols that contain polynomials themselves are
  built on top in `Symbol`.
-/

namespace QuantumLowering

/-- A product of powers; the symbols ascend. -/
structure PowerProduct (σ : Type) where
  factors : List (σ × UInt32)

/-- Exponents are numbers where numbers are asked for. -/
instance coeExponent : Coe UInt32 Nat := ⟨UInt32.toNat⟩

/-- A coefficient times a power product. -/
structure Monomial (σ : Type) where
  powers : PowerProduct σ
  coefficient : Int64

/-- A sum of monomials; the power products ascend and no coefficient is zero. -/
structure Polynomial (σ : Type) where
  terms : List (Monomial σ)

variable {σ : Type}

/-! ## Power products -/

namespace PowerProduct

/-- The empty product. -/
def one : PowerProduct σ := ⟨[]⟩

/-- One symbol to the first power. -/
def ofSymbol (s : σ) : PowerProduct σ := ⟨[(s, 1)]⟩

/-- Whether a product is empty. -/
def isOne (m : PowerProduct σ) : Bool := m.factors.isEmpty

/-- The sum of the exponents. -/
def degree (m : PowerProduct σ) : UInt32 := m.factors.foldr (fun f n => f.2 + n) 0

/-- The symbol of a product that is a single symbol to the first power. -/
def linearSymbol? (m : PowerProduct σ) : Option σ :=
  match m.factors with
  | [(s, 1)] => some s
  | _ => none

variable [Ord σ]

/-- Lists of factors are compared from the left, symbol before exponent; a shorter list comes
    before the lists it begins. -/
def compareFactors : List (σ × UInt32) → List (σ × UInt32) → Ordering
  | [], [] => .eq
  | [], _ :: _ => .lt
  | _ :: _, [] => .gt
  | (s, d) :: m, (t, e) :: n =>
    (compare s t).then ((compare d e).then (compareFactors m n))

instance : Ord (PowerProduct σ) := ⟨fun m n => compareFactors m.factors n.factors⟩

/-- Multiplies a sorted list of factors by the power `s ^ e`. -/
def insertPower (s : σ) (e : UInt32) : List (σ × UInt32) → List (σ × UInt32)
  | [] => [(s, e)]
  | (t, d) :: rest =>
    match compare s t with
    | .lt => (s, e) :: (t, d) :: rest
    | .eq => (t, d + e) :: rest
    | .gt => (t, d) :: insertPower s e rest

/-- The product: exponents of equal symbols add up. -/
def mul (m n : PowerProduct σ) : PowerProduct σ :=
  ⟨n.factors.foldr (fun f acc => insertPower f.1 f.2 acc) m.factors⟩

end PowerProduct

/-! ## Monomials -/

namespace Monomial

/-- A monomial; a zero coefficient leaves no factors. -/
def of (coefficient : Int64) (powers : PowerProduct σ) : Monomial σ :=
  if coefficient = 0 then ⟨.one, 0⟩ else ⟨powers, coefficient⟩

variable [Ord σ]

/-- The product of two monomials. -/
def mul (a b : Monomial σ) : Monomial σ :=
  of (a.coefficient * b.coefficient) (a.powers.mul b.powers)

end Monomial

/-! ## Polynomials -/

namespace Polynomial

/-- The polynomial without terms. -/
def zero : Polynomial σ := ⟨[]⟩

/-- A constant; the constant zero has no terms. -/
def const (c : Int64) : Polynomial σ := if c = 0 then ⟨[]⟩ else ⟨[⟨.one, c⟩]⟩

/-- One symbol. -/
def ofSymbol (s : σ) : Polynomial σ := ⟨[⟨.ofSymbol s, 1⟩]⟩

instance : Inhabited (Polynomial σ) := ⟨zero⟩

/-- Whether there are no terms. -/
def isZero (p : Polynomial σ) : Bool := p.terms.isEmpty

/-- The value of a polynomial without symbols. -/
def constant? (p : Polynomial σ) : Option Int64 :=
  match p.terms with
  | [] => some 0
  | [t] => if t.powers.isOne then some t.coefficient else none
  | _ => none

/-- Whether there are no symbols. -/
def isConstant (p : Polynomial σ) : Bool := p.constant?.isSome

/-- The coefficient of the empty power product. -/
def constantTerm (p : Polynomial σ) : Int64 :=
  match p.terms.find? (·.powers.isOne) with
  | some t => t.coefficient
  | none => 0

/-- The symbol and the coefficient of a polynomial that is a multiple of one symbol. -/
def multipleOfSymbol? (p : Polynomial σ) : Option (σ × Int64) :=
  match p.terms with
  | [t] => t.powers.linearSymbol?.map (·, t.coefficient)
  | _ => none

/-- The greatest common divisor of the magnitudes of the coefficients. -/
def content (p : Polynomial σ) : Nat :=
  p.terms.foldl (fun g t => g.gcd t.coefficient.toInt.natAbs) 0

variable [Ord σ]

/-- Lists of terms are compared from the left, power product before coefficient; a shorter list
    comes before the lists it begins. -/
def compareTerms : List (Monomial σ) → List (Monomial σ) → Ordering
  | [], [] => .eq
  | [], _ :: _ => .lt
  | _ :: _, [] => .gt
  | s :: p, t :: q =>
    (compare s.powers t.powers).then
      ((compare s.coefficient t.coefficient).then (compareTerms p q))

instance : Ord (Polynomial σ) := ⟨fun p q => compareTerms p.terms q.terms⟩

/-- Goes along a sorted list of terms to the place of the term `s`, adds `s` there, and leaves
    what follows to `rest`; a sum that is zero disappears. -/
def place (s : Monomial σ) (rest : List (Monomial σ) → List (Monomial σ)) :
    List (Monomial σ) → List (Monomial σ)
  | [] => s :: rest []
  | t :: q =>
    match compare s.powers t.powers with
    | .lt => s :: rest (t :: q)
    | .eq =>
      let c := s.coefficient + t.coefficient
      if c = 0 then rest q else ⟨s.powers, c⟩ :: rest q
    | .gt => t :: place s rest q

/-- Merges two sorted lists of terms. -/
def addTerms : List (Monomial σ) → List (Monomial σ) → List (Monomial σ)
  | [], q => q
  | s :: p, q => place s (addTerms p) q

/-- Adds a list of terms to a row of partial sums the way one is added to a binary counter: two
    sums of the same rank make one of the next. -/
def carry (p : List (Monomial σ)) :
    List (Option (List (Monomial σ))) → List (Option (List (Monomial σ)))
  | [] => [some p]
  | none :: sums => some p :: sums
  | some q :: sums => none :: carry (addTerms q p) sums

/-- The sum of a row of partial sums. -/
def total (sums : List (Option (List (Monomial σ)))) : List (Monomial σ) :=
  sums.foldl (fun acc p => addTerms acc (p.getD [])) []

/-- The sum of monomials, in any order and with repetitions. -/
def sumTerms (ms : List (Monomial σ)) : List (Monomial σ) :=
  let single (t : Monomial σ) := if t.coefficient = 0 then [] else [t]
  total (ms.foldl (fun sums t => carry (single t) sums) [])

/-- The sum of a list of monomials, in any order and with repetitions. -/
def ofMonomials (ms : List (Monomial σ)) : Polynomial σ := ⟨sumTerms ms⟩

/-- The sum. -/
def add (p q : Polynomial σ) : Polynomial σ := ⟨addTerms p.terms q.terms⟩

/-- The difference. -/
def sub (p q : Polynomial σ) : Polynomial σ :=
  ⟨addTerms p.terms (q.terms.map fun t => ⟨t.powers, -t.coefficient⟩)⟩

/-- The product: every term of `p` with every term of `q`. -/
def mul (p q : Polynomial σ) : Polynomial σ :=
  ⟨total (p.terms.foldl (fun sums s => carry (sumTerms (q.terms.map s.mul)) sums) [])⟩

/-- The multiple by a constant. -/
def scale (k : Int64) (p : Polynomial σ) : Polynomial σ :=
  ⟨p.terms.filterMap fun t =>
    let c := t.coefficient * k
    if c = 0 then none else some ⟨t.powers, c⟩⟩

/-- The negative. -/
def neg (p : Polynomial σ) : Polynomial σ := p.scale (-1)

instance : Add (Polynomial σ) := ⟨add⟩
instance : Sub (Polynomial σ) := ⟨sub⟩
instance : Mul (Polynomial σ) := ⟨mul⟩
instance : Neg (Polynomial σ) := ⟨neg⟩

/-- `acc * base ^ e`, with one squaring for each further binary digit of `e`. -/
def powLoop (acc base : Polynomial σ) (e : Nat) : Polynomial σ :=
  if e = 0 then acc
  else
    let acc := if e % 2 = 1 then acc * base else acc
    if e / 2 = 0 then acc else powLoop acc (base * base) (e / 2)
termination_by e

/-- The power with a constant exponent. -/
def pow (p : Polynomial σ) (e : Nat) : Polynomial σ := powLoop (const 1) p e

/-- The quotient by a constant that divides every coefficient. -/
def divExact? (p : Polynomial σ) (d : Int64) : Option (Polynomial σ) :=
  if d = 0 ∨ p.content % d.toInt.natAbs ≠ 0 then none
  else some ⟨p.terms.map fun t => ⟨t.powers, t.coefficient / d⟩⟩

end Polynomial

end QuantumLowering
