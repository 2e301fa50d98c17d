/-
  What a run of the command line leads to.

  * `Report`: an exit code with the texts for standard output and standard error.
  * `Outcome`: a report, or a file to write with a report for either end of that.
  * `Invocation.outcome`: the outcome of what the arguments ask for, given the contents of files.
-/
import QuantumLowering.CommandLine.Invocation
import QuantumLowering.Demo
import QuantumLowering.Diagnostic.Json
import QuantumLowering.Settings.File
import QuantumLowering.TextHash

namespace QuantumLowering

/-- What is told at the end of a run. -/
structure Report where
  code : Nat
  out : String
  err : String
deriving DecidableEq, Repr

namespace Report

/-- Success with a text. -/
def success (out : String) : Report := ⟨0, out, ""⟩

/-- Failure with a message behind other texts. -/
def failure (out err message : String) : Report := ⟨1, out, err ++ "Error: " ++ message ++ "\n"⟩

end Report

/-- What a run leads to. -/
inductive Outcome
  | report (r : Report)
  /-- Writes a file. -/
  | write (path text : String) (written failed : Report)

/-! ## Texts -/

/-- The version of the program. -/
def versionNumber : String := "0.4.0"

/-- Lines, each with its end. -/
def unlines (lines : List String) : String := String.join (lines.map (· ++ "\n"))

/-- A text filled up with blanks to a width. -/
def padded (width : Nat) (s : String) : String := s ++ "".pushn ' ' (width - s.length)

/-- The text that helps. -/
def helpText : String :=
  unlines ["Usage: qforge [OPTIONS] <COMMAND>", "", "Commands:",
    "  lower    Lower a demonstration module and print its listing",
    "  demos    List the demonstration modules",
    "  version  Show version information"]

/-- The list of the demonstrations. -/
def demosText : String :=
  unlines (["Demonstration modules:"] ++
    Demo.all.map (fun d => "  " ++ padded 16 d.name ++ " " ++ d.description) ++
    ["", "Run qforge lower <name> to lower one."])

/-- The parts of the program. -/
def componentsText : String :=
  unlines ["qforge v" ++ versionNumber ++ " - lowering for quantum/classical hybrid programs",
    "", "Components:",
    "  qforge-ir       Symbolic sizes, qubit accessors, operation expressions",
    "  qforge-compile  Decomposition, multiplexed control, code generation",
    "  qforge-cli      Command-line interface", "", "License: Apache-2.0"]

/-! ## Lowering -/

namespace LowerOptions

/-- The settings of a file, if there is one, with what the options say instead. -/
def settings (o : LowerOptions) (contents : String → Except String String) :
    Except SettingsError Settings := do
  let base ← match o.config with
    | some path => Settings.ofFile path (contents path)
    | none => .ok .standard
  let language ← match o.language with
    | some name => Settings.parseLanguage name
    | none => .ok base.language
  Settings.check
    { language
      library := base.library || o.library
      comments := base.comments && !o.noComments
      indent := o.indent.getD base.indent }

/-- The outcome for a listing. -/
def listed (o : LowerOptions) (demo listing : String) : Outcome :=
  match o.output with
  | some path =>
    .write path listing ⟨0, "", "✓ Lowered " ++ demo ++ " into " ++ path ++ "\n"⟩
      (.failure "" "" ("Failed to write " ++ path))
  | none =>
    if o.format = some .json then
      let document := Json.object
        [("demo", .string demo), ("diagnostics", .array []), ("listing", .string listing)]
      .report (.success (document.pretty ++ "\n"))
    else .report (.success listing)

/-- The outcome for a module that cannot be lowered. -/
def failed (o : LowerOptions) (demo : String) (ds : List Diagnostic) : Outcome :=
  let message := "lowering '" ++ demo ++ "' failed with " ++ toString ds.length ++ " error(s)"
  if o.format = some .json then
    .report (.failure ((Diagnostic.listToJson ds).pretty ++ "\n") "" message)
  else .report (.failure "" (unlines (ds.map Diagnostic.render)) message)

/-- The outcome of lowering a demonstration. -/
def outcome (o : LowerOptions) (demo : String) (contents : String → Except String String) :
    Outcome :=
  match o.settings contents with
  | .error e => .report (.failure "" "" e.message)
  | .ok settings =>
    match (Demo.find? demo).map Demo.module with
    | none => .report (.failure "" "" (Demo.unknownMessage demo))
    | some (.error e) => .report (.failure "" "" e.message)
    | some (.ok module) =>
      match module.lower with
      | .ok lowered => o.listed demo (lowered.listing settings)
      | .error ds => o.failed demo ds

end LowerOptions

/-- The outcome of what the arguments ask for, given the contents of files. -/
def Invocation.outcome (contents : String → Except String String) : Invocation → Outcome
  | .help => .report (.success helpText)
  | .version => .report (.success ("qforge " ++ versionNumber ++ "\n"))
  | .lower demo options => options.outcome demo contents
  | .demos => .report (.success demosText)
  | .components => .report (.success componentsText)
  | .misuse e => .report ⟨2, "", "error: " ++ e.message ++ "\n\n" ++ helpText⟩

/-- The settings file that has to be read. -/
def Invocation.config? : Invocation → Option String
  | .lower _ options => options.config
  | _ => none

end QuantumLowering
