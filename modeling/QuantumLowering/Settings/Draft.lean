/-
  Settings while they are read: every field is said at most once.

  * `SettingsField`: the fields, and any other name.
  * `SettingsDraft`: the fields said so far.
  * `SettingsDraft.finish`: the standard setting for every field that was not said.
-/
import QuantumLowering.Settings

namespace QuantumLowering

/-- The fields of a settings file; names of no field are passed over. -/
inductive SettingsField
  | language
  | library
  | comments
  | indent
  | other
deriving DecidableEq, Repr

/-- The field of a name. -/
def SettingsField.ofName : String → SettingsField
  | "target_language" => language
  | "build_library" => library
  | "emit_comments" => comments
  | "indent" => indent
  | _ => other

/-- The fields said so far. -/
structure SettingsDraft where
  language : Option TargetLanguage
  library : Option Bool
  comments : Option Bool
  indent : Option Nat

namespace SettingsDraft

/-- Nothing said. -/
def empty : SettingsDraft := ⟨none, none, none, none⟩

/-- Says the language, once. -/
def setLanguage? (d : SettingsDraft) (l : TargetLanguage) : Option SettingsDraft :=
  if d.language.isSome then none else some { d with language := some l }

/-- Says whether a library is built, once. -/
def setLibrary? (d : SettingsDraft) (b : Bool) : Option SettingsDraft :=
  if d.library.isSome then none else some { d with library := some b }

/-- Says whether there are comments, once. -/
def setComments? (d : SettingsDraft) (b : Bool) : Option SettingsDraft :=
  if d.comments.isSome then none else some { d with comments := some b }

/-- Says the indentation, once; it fits in 64 bits. -/
def setIndent? (d : SettingsDraft) (n : Nat) : Option SettingsDraft :=
  if d.indent.isSome ∨ UInt64.size ≤ n then none else some { d with indent := some n }

/-- The settings, with the standard ones for what was not said. -/
def finish (d : SettingsDraft) : Settings :=
  { language := d.language.getD Settings.standard.language
    library := d.library.getD Settings.standard.library
    comments := d.comments.getD Settings.standard.comments
    indent := d.indent.getD Settings.standard.indent }

end SettingsDraft

end QuantumLowering
