/-
  Messages for the user.

  * `Severity`, `Diagnostic`: a message with its severity and position.
  * `Diagnostic.ofLowering`: the diagnostic of a failed lowering; the position is not repeated
    in its message.
  * `Diagnostic.renderAll`: one diagnostic a line.
-/
import QuantumLowering.Lowering
import QuantumLowering.Settings

namespace QuantumLowering

/-- How serious a diagnostic is. -/
inductive Severity
  | error
  | warning
  | note
deriving DecidableEq, Repr

/-- The word for a severity. -/
def Severity.render : Severity → String
  | error => "error"
  | warning => "warning"
  | note => "note"

/-- A message about a place in the source. -/
structure Diagnostic where
  severity : Severity
  location : Option Location
  message : String

namespace Diagnostic

/-- The text of a diagnostic. -/
def render (d : Diagnostic) : String :=
  Location.lead d.location ++ d.severity.render ++ ": " ++ d.message

/-- The diagnostic of a failed lowering. -/
def ofLowering (e : LoweringError) : Diagnostic := ⟨.error, e.location, e.reason⟩

/-- The diagnostic of wrong settings. -/
def ofSettings (e : SettingsError) : Diagnostic := ⟨.error, none, e.message⟩

/-- The same diagnostic with a position, if it had none. -/
def withDefault (d : Diagnostic) (location : Option Location) : Diagnostic :=
  { d with location := d.location.or location }

/-- One diagnostic a line. -/
def renderAll (ds : List Diagnostic) : String := "\n".intercalate (ds.map render)

/-- Whether some diagnostic is an error. -/
def anyError (ds : List Diagnostic) : Bool := ds.any (·.severity = .error)

end Diagnostic

end QuantumLowering
