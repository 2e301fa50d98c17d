/-
  Settings files.

  * `fileExtension?`: what follows the last point of a file's name.
  * `Settings.ofFile`: a file is read as JSON if its extension says so, and else as YAML; the
    settings are checked.
-/
import QuantumLowering.Location
import QuantumLowering.Settings.Json
import QuantumLowering.Settings.Yaml

namespace QuantumLowering

/-- What follows the last point of a file's name; a point in front of the name is part of it. -/
def fileExtension? (path : String) : Option String :=
  match (Location.pathComponents path).getLast? with
  | none => none
  | some name =>
    match (name.splitOn ".").reverse with
    | [] | [_] | [_, ""] => none
    | extension :: _ => if name = ".." then none else some extension

namespace Settings

/-- The settings of a JSON text. -/
def ofJson (text : String) : Except SettingsError Settings :=
  match ofJson? text with
  | some s => s.check
  | none => .error .malformedJson

/-- The settings of a YAML text. -/
def ofYaml (text : String) : Except SettingsError Settings :=
  match ofYaml? text with
  | some s => s.check
  | none => .error .malformedYaml

/-- The settings of a file of which the text, or the reason why it cannot be read, is known. -/
def ofFile (path : String) (contents : Except String String) : Except SettingsError Settings :=
  match contents with
  | .error reason => .error (.unreadable path reason)
  | .ok text => if fileExtension? path = some "json" then ofJson text else ofYaml text

end Settings

end QuantumLowering
