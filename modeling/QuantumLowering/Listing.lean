/-
  A readable listing of lowered code, one indented line for each event.

  * `Listing`: the settings, the lines so far, and the depth of the next line.
  * `Listing.step`: the line of an event and the depth after it.
  * `Listing.text`: the lines, each with its end.

  Headers that open a body end in a brace and raise the depth; the closing brace is written
  one level below.  A closing brace without a header stays at depth zero.
-/
import QuantumLowering.Event
import QuantumLowering.Settings

namespace QuantumLowering

/-- A listing under construction. -/
structure Listing where
  settings : Settings
  /-- The lines so far, the latest first. -/
  lines : List String
  depth : Nat

namespace Listing

/-- A listing without lines. -/
def empty (settings : Settings) : Listing := ⟨settings, [], 0⟩

/-- Writes a line at the present depth. -/
def line (l : Listing) (text : String) : Listing :=
  { l with lines := ("".pushn ' ' (l.depth * l.settings.indent) ++ text) :: l.lines }

/-- Writes a header and an opening brace; what follows is one level deeper. -/
def opening (l : Listing) (header : String) : Listing :=
  let l := l.line (header ++ " \x7b")
  { l with depth := l.depth + 1 }

/-- Writes a closing brace one level higher. -/
def closing (l : Listing) : Listing :=
  let l := { l with depth := l.depth - 1 }
  l.line "\x7d"

/-- Closes a branch and opens the other one. -/
def reopening (l : Listing) : Listing :=
  let l := { l with depth := l.depth - 1 }
  let l := l.line "\x7d else \x7b"
  { l with depth := l.depth + 1 }

/-- The text of a parameter list. -/
def paramsText (params : List ClassicalVariable) : String :=
  ", ".intercalate (params.map ClassicalVariable.render)

/-- The text of an operation's signature. -/
def signatureText (name : String) (params : List ClassicalVariable)
    (registers : List QuantumVariable) : String :=
  let texts := params.map ClassicalVariable.render ++ registers.map QuantumVariable.render
  "operation " ++ name ++ "(" ++ ", ".intercalate texts ++ ")"

/-- The text of the bounds of a slice. -/
def boundsText (start stop step : Quantity) : String :=
  "[" ++ start.render ++ ":" ++ stop.render ++
    (if step.isConst 1 then "" else ":" ++ step.render) ++ "]"

/-- The line that heads a file. -/
def headline (s : Settings) : String :=
  "// qforge listing, target " ++ s.language.name ++
    (if s.library then " library" else " executable")

/-- Adds what an event says. -/
def step (l : Listing) : Event → Listing
  | .beginFile => if l.settings.comments then l.line (headline l.settings) else l
  | .endFile => l
  | .constant x value => l.line ("const " ++ x.render ++ " = " ++ value.render ++ ";")
  | .beginOperation name exported params registers =>
    l.opening ((if exported then "export " else "") ++ signatureText name params registers)
  | .endOperation => l.closing
  | .foreignOperation name exported params registers =>
    l.line ((if exported then "export " else "") ++ "extern " ++
      signatureText name params registers ++ ";")
  | .beginProgram name params shots =>
    l.opening ("program " ++ name ++ "(" ++ paramsText params ++ ") shots " ++ shots.render)
  | .endProgram => l.closing
  | .foreignProgram name params =>
    l.line ("extern program " ++ name ++ "(" ++ paramsText params ++ ");")
  | .declareFresh q size => l.line ("qreg " ++ q.identifier ++ "[" ++ size.render ++ "];")
  | .declareJoined q parts =>
    l.line ("qref " ++ q.identifier ++ " = concat(" ++
      ", ".intercalate (parts.map Qubits.identifier) ++ ");")
  | .declareStrided q subject start stop step =>
    l.line ("qref " ++ q.identifier ++ " = " ++ subject.identifier ++
      boundsText start stop step ++ ";")
  | .declareSingle q subject index =>
    l.line ("qref " ++ q.identifier ++ " = " ++ subject.identifier ++
      "[" ++ index.render ++ "];")
  | .encode target value =>
    l.line ("encode " ++ target.identifier ++ " <- " ++ value.render ++ ";")
  | .gate g target => l.line (g.render ++ " " ++ target.identifier ++ ";")
  | .call d args target =>
    l.line (d.name ++ "(" ++ ClassicalValue.renderList args ++ ") " ++ target.identifier ++ ";")
  | .beginControl control condition =>
    l.line ("ctrl " ++ control.identifier ++ " == " ++ (if condition then "1" else "0") ++ ";")
  | .endControl control => l.line ("end ctrl " ++ control.identifier ++ ";")
  | .beginDagger => l.opening "dagger"
  | .endDagger => l.closing
  | .measure target => l.line ("measure " ++ target.identifier ++ ";")
  | .assign x value => l.line ("let " ++ x.render ++ " = " ++ value.render ++ ";")
  | .bind x q => l.line ("qref " ++ x.name ++ " = " ++ q.identifier ++ ";")
  | .beginFor index range => l.opening ("for " ++ index.name ++ " in " ++ range.render)
  | .endFor => l.closing
  | .beginIf condition => l.opening ("if " ++ condition.render)
  | .beginElse => l.reopening
  | .endIf => l.closing

/-- Adds what a stream of events says. -/
def run (l : Listing) (events : List Event) : Listing := events.foldl step l

/-- The lines, each with its end. -/
def text (l : Listing) : String :=
  String.join (l.lines.reverse.map (· ++ "\n"))

/-- The listing again without lines and at depth zero. -/
def restart (l : Listing) : Listing := empty l.settings

end Listing

/-- The listing of lowered code by itself. -/
def Instruction.listing (settings : Settings) (code : List Instruction) : String :=
  ((Listing.empty settings).run (Instruction.listEvents code)).text

end QuantumLowering
