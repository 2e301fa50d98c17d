/-
  Source positions carried by quantities, operations and instructions.

  * `Location`: a line and a column of a source file, the file possibly unknown.
  * `Location.render`: `file:line:column`.
  * `orElse`: of two optional positions the first one that is known.

  Two positions name the same place when their files have the same path
  components: doubled or trailing separators and inner `.` components do not
  tell files apart.
-/

namespace QuantumLowering

/-- A position in a source file; lines and columns count from one. -/
structure Location where
  /-- The file, if it is known. -/
  source : Option String
  line : Nat
  column : Nat
deriving Repr, Inhabited

namespace Location

/-- The components of a path: empty ones are dropped, and so is `.` except in front. -/
def pathComponents (path : String) : List String :=
  let parts := (path.splitOn "/").filter (· ≠ "")
  if path.startsWith "/" then
    "/" :: parts.filter (· ≠ ".")
  else
    match parts with
    | [] => []
    | first :: rest => first :: rest.filter (· ≠ ".")

/-- Whether two positions name the same place. -/
def samePlace (a b : Location) : Bool :=
  a.source.map pathComponents == b.source.map pathComponents &&
    a.line == b.line && a.column == b.column

instance : BEq Location := ⟨samePlace⟩

/-- The text of a position. -/
def render (loc : Location) : String :=
  loc.source.getD "<unknown>" ++ ":" ++ toString loc.line ++ ":" ++ toString loc.column

/-- The text put before a message: the position and a colon, or nothing. -/
def lead : Option Location → String
  | some loc => loc.render ++ ": "
  | none => ""

end Location

end QuantumLowering
