/-
  Diagnostics as JSON.

  * `Diagnostic.toJson`: severity, position and message; what is not known is left out.
  * `Diagnostic.listToJson`: diagnostics in their order.
-/
import QuantumLowering.Diagnostic
import QuantumLowering.Json.Basic

namespace QuantumLowering

/-- A position as JSON; an unknown file is left out. -/
def Location.toJson (l : Location) : Json :=
  let place : List (String × Json) := [("line", .number l.line), ("column", .number l.column)]
  match l.source with
  | some file => .object (("source", .string file) :: place)
  | none => .object place

namespace Diagnostic

/-- A diagnostic as JSON; an unknown position is left out. -/
def toJson (d : Diagnostic) : Json :=
  let place : List (String × Json) :=
    match d.location with
    | some l => [("location", l.toJson)]
    | none => []
  .object ([("severity", .string d.severity.render)] ++ place ++ [("message", .string d.message)])

/-- Diagnostics as JSON. -/
def listToJson (ds : List Diagnostic) : Json := .array (ds.map toJson)

end Diagnostic

end QuantumLowering
