/-
  The text of symbols and polynomials.

  * `PowerProduct`: factors joined by `*`, exponents other than one after `^`.
  * `Polynomial.render`: terms from the greatest down, signs between them, coefficient one left out.
  * `Symbol.render`: operations in parentheses around their mark, calls with their arguments.
-/
import QuantumLowering.Symbol.Operators

namespace QuantumLowering

namespace Symbol

/-- A term ready to be joined: its sign and the text of its magnitude. -/
structure SignedText where
  negative : Bool
  text : String

/-- The text of a term, from its coefficient and the text of its power product. -/
def signedText (isOne : Bool) (powers : String) (c : Int64) : SignedText :=
  let magnitude := c.toInt.natAbs
  { negative := c < 0
    text :=
      if isOne then toString magnitude
      else if magnitude = 1 then powers
      else toString magnitude ++ "*" ++ powers }

/-- Terms after the first: each one behind its sign. -/
def joinRest : List SignedText → String
  | [] => ""
  | t :: ts => (if t.negative then " - " else " + ") ++ t.text ++ joinRest ts

/-- Terms from the greatest down; no terms are written as zero. -/
def joinTerms : List SignedText → String
  | [] => "0"
  | t :: ts => (if t.negative then "-" else "") ++ t.text ++ joinRest ts

mutual
/-- The text of a symbol. -/
def render : Symbol → String
  | .named n => n
  | .binary op p q => "(" ++ renderPoly p ++ " " ++ op.token ++ " " ++ renderPoly q ++ ")"
  | .call f args => f ++ "(" ++ ", ".intercalate (renderArgs args) ++ ")"

/-- The text of a polynomial. -/
def renderPoly : Polynomial Symbol → String
  | ⟨ts⟩ => joinTerms (signedTexts ts).reverse

/-- The terms of a polynomial, in their order. -/
def signedTexts : List (Monomial Symbol) → List SignedText
  | [] => []
  | ⟨⟨m⟩, c⟩ :: ts => signedText m.isEmpty ("*".intercalate (renderFactors m)) c :: signedTexts ts

/-- The texts of the factors of a power product. -/
def renderFactors : List (Symbol × UInt32) → List String
  | [] => []
  | (s, e) :: m =>
    (if e = 1 then render s else render s ++ "^" ++ toString e) :: renderFactors m

/-- The texts of the arguments of a call. -/
def renderArgs : List (Polynomial Symbol) → List String
  | [] => []
  | p :: ps => renderPoly p :: renderArgs ps
end

end Symbol

/-- The text of a power product. -/
def PowerProduct.render (m : PowerProduct Symbol) : String :=
  "*".intercalate (Symbol.renderFactors m.factors)

/-- The text of a polynomial. -/
def Polynomial.render (p : Poly) : String := Symbol.renderPoly p

end QuantumLowering
