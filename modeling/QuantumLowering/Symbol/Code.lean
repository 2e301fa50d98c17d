/-
  A text that determines a polynomial.

  * `Code.number`, `Code.name`: a number with its end marked, a name with its length in front.
  * `Code.list`: every element behind a comma, the end marked by a point.
  * `Code.digest`: 64 bits that stand for a text where the text itself would grow too long.
  * `Polynomial.code`: the terms with all their parts.

  Every code says where it ends, so codes written one after another are read back in one way
  only and two polynomials with the same code are equal.  Rendered text does not have this
  property when names hold operators.
-/
import QuantumLowering.Symbol.Text

namespace QuantumLowering

namespace Code

/-- A number and its end. -/
def number (n : Int) : String := toString n ++ ";"

/-- A name behind its length. -/
def name (s : String) : String := toString s.length ++ ":" ++ s

/-- A list of codes. -/
def list : List String → String
  | [] => "."
  | c :: cs => "," ++ c ++ list cs

/-- Sixty-four bits that are mixed with one character after another. -/
def digest (s : String) : UInt64 :=
  s.toList.foldl (fun bits c => (bits ^^^ c.toNat.toUInt64) * 0x100000001b3) 0xcbf29ce484222325

end Code

namespace Symbol

mutual
/-- The code of a symbol. -/
def code : Symbol → String
  | .named n => "n" ++ Code.name n
  | .binary op p q => "o" ++ Code.name op.token ++ polyCode p ++ polyCode q
  | .call f args => "c" ++ Code.name f ++ Code.list (argCodes args)

/-- The code of a polynomial. -/
def polyCode : Polynomial Symbol → String
  | ⟨ts⟩ => Code.list (termCodes ts)

/-- The codes of the terms. -/
def termCodes : List (Monomial Symbol) → List String
  | [] => []
  | ⟨⟨m⟩, c⟩ :: ts => (Code.list (factorCodes m) ++ Code.number c.toInt) :: termCodes ts

/-- The codes of the factors. -/
def factorCodes : List (Symbol × UInt32) → List String
  | [] => []
  | (s, e) :: m => (code s ++ Code.number e.toNat) :: factorCodes m

/-- The codes of the arguments of a call. -/
def argCodes : List (Polynomial Symbol) → List String
  | [] => []
  | p :: ps => polyCode p :: argCodes ps
end

end Symbol

/-- The code of a polynomial. -/
def Polynomial.code (p : Poly) : String := Symbol.polyCode p

end QuantumLowering
