/-
  Settings of a compilation.

  * `TargetLanguage`: the languages a module is compiled for, with their names.
  * `Settings`: language, library or executable, comments, and indentation width.
  * `Settings.check`: the indentation is between one and sixteen.
  * `SettingsError`: what can be wrong with settings and with the file they are read from.
-/

namespace QuantumLowering

/-- The language a module is compiled for. -/
inductive TargetLanguage
  | c
  | cpp
  | rust
  | java
  | python
deriving DecidableEq, Repr

namespace TargetLanguage

/-- The main name of a language. -/
def name : TargetLanguage → String
  | c => "c"
  | cpp => "cpp"
  | rust => "rust"
  | java => "java"
  | python => "python"

/-- The language of one of its lower-case names. -/
def ofName? : String → Option TargetLanguage
  | "c" => some c
  | "c++" | "cpp" | "cxx" => some cpp
  | "rust" | "rs" => some rust
  | "java" => some java
  | "py" | "python" => some python
  | _ => none

/-- The language of a name in which the case of ASCII letters does not matter. -/
def ofAnyCase? (s : String) : Option TargetLanguage := ofName? (s.map Char.toLower)

end TargetLanguage

/-- What can be wrong with settings. -/
inductive SettingsError
  /-- A file cannot be read; the reason is the operating system's. -/
  | unreadable (path reason : String)
  | malformedYaml
  | malformedJson
  | unknownLanguage (name : String)
  | indentOutOfRange (indent : Nat)

/-- The error in words. -/
def SettingsError.message : SettingsError → String
  | unreadable path reason => "Failed to read config '" ++ path ++ "': " ++ reason
  | malformedYaml => "Invalid YAML config"
  | malformedJson => "Invalid JSON config"
  | unknownLanguage name => "Unknown target language '" ++ name ++ "'"
  | indentOutOfRange indent =>
    "Invalid config: indent must be between 1 and 16, got " ++ toString indent

/-- The settings of a compilation. -/
structure Settings where
  language : TargetLanguage
  /-- A library instead of an executable. -/
  library : Bool
  comments : Bool
  /-- Spaces per level. -/
  indent : Nat
deriving DecidableEq, Repr

namespace Settings

/-- The settings that hold where nothing is said. -/
def standard : Settings := ⟨.c, false, true, 4⟩

instance : Inhabited Settings := ⟨standard⟩

/-- The settings, if their indentation is in range. -/
def check (s : Settings) : Except SettingsError Settings :=
  if 1 ≤ s.indent ∧ s.indent ≤ 16 then .ok s else .error (.indentOutOfRange s.indent)

/-- The language of a name, or the error for an unknown one. -/
def parseLanguage (name : String) : Except SettingsError TargetLanguage :=
  match TargetLanguage.ofAnyCase? name with
  | some l => .ok l
  | none => .error (.unknownLanguage name)

end Settings

end QuantumLowering
