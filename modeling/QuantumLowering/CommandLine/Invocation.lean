/-
  What the arguments of the command line ask for.

  * `Invocation`: help, version, a command, or arguments that make no sense.
  * `LowerOptions`: the options of the command that lowers a demonstration; each is given at most
    once.
  * `Invocation.ofArgs`: the arguments from left to right; the first of them that asks for help or
    the version, or makes no sense, decides.
-/
import QuantumLowering.Text.Digits

namespace QuantumLowering

/-- Why arguments make no sense. -/
inductive UsageError
  | unexpected (argument : String)
  | missingValue
  | badValue (value : String)
  | repeated
  | missingCommand
  | missingDemo

/-- The error in words. -/
def UsageError.message : UsageError → String
  | unexpected argument => "unexpected argument '" ++ argument ++ "'"
  | missingValue => "an option has no value"
  | badValue value => "invalid value '" ++ value ++ "'"
  | repeated => "an option is given twice"
  | missingCommand => "no command is given"
  | missingDemo => "no demo is given"

/-! ## Options -/

/-- The options that have a value. -/
inductive ValueOption
  | config
  | language
  | indent
  | format
  | output
deriving DecidableEq, Repr

/-- All options. -/
inductive Flag
  | help
  | version
  | verbose
  | library
  | noComments
  | value (o : ValueOption)
deriving DecidableEq, Repr

/-- Where an argument stands: in front of the command, behind a command without options, or
    behind the command that lowers. -/
inductive Place
  | top
  | plain
  | lower
deriving DecidableEq, Repr

namespace Flag

/-- Whether an option is understood at a place. -/
def isKnown (p : Place) : Flag → Bool
  | help | verbose => true
  | version => p = .top
  | library | noComments | value _ => p = .lower

/-- The option of a long name. -/
def ofName? (p : Place) (name : String) : Option Flag :=
  let flag : Option Flag := match name with
    | "help" => some help
    | "version" => some version
    | "verbose" => some verbose
    | "library" => some library
    | "no-comments" => some noComments
    | "config" => some (value .config)
    | "language" => some (value .language)
    | "indent" => some (value .indent)
    | "format" => some (value .format)
    | "output" => some (value .output)
    | _ => none
  flag.filter (isKnown p)

/-- The option of a letter. -/
def ofLetter? (p : Place) (letter : Char) : Option Flag :=
  let flag : Option Flag := match letter with
    | 'h' => some help
    | 'V' => some version
    | 'v' => some verbose
    | 'c' => some (value .config)
    | 'l' => some (value .language)
    | 'f' => some (value .format)
    | 'o' => some (value .output)
    | _ => none
  flag.filter (isKnown p)

end Flag

/-- How the outcome of lowering is written. -/
inductive OutputFormat
  | text
  | json
deriving DecidableEq, Repr

/-- The options of the command that lowers a demonstration. -/
structure LowerOptions where
  config : Option String
  language : Option String
  library : Bool
  noComments : Bool
  indent : Option Nat
  format : Option OutputFormat
  output : Option String
deriving DecidableEq, Repr

namespace LowerOptions

/-- No options. -/
def empty : LowerOptions := ⟨none, none, false, false, none, none, none⟩

/-- A path; it is not empty. -/
def path (value : String) : Except UsageError String :=
  if value = "" then .error (.badValue value) else .ok value

/-- A count of 64 bits in decimal digits, which may have a plus sign. -/
def count (value : String) : Except UsageError Nat :=
  let digits := match value.toList with
    | '+' :: r => r
    | cs => cs
  let n := decimalValue digits
  if digits.isEmpty || !digits.all Char.isDigit || UInt64.size ≤ n then .error (.badValue value)
  else .ok n

/-- An output format. -/
def formatNamed (value : String) : Except UsageError OutputFormat :=
  match value with
  | "text" => .ok .text
  | "json" => .ok .json
  | _ => .error (.badValue value)

/-- A value for an option that has none so far. -/
def once {α : Type} (old : Option α) (new : Except UsageError α) :
    Except UsageError (Option α) :=
  new.bind fun x => if old.isSome then .error .repeated else .ok (some x)

/-- Gives an option its value. -/
def set (options : LowerOptions) (o : ValueOption) (value : String) :
    Except UsageError LowerOptions := do
  match o with
  | .config => return { options with config := ← once options.config (path value) }
  | .language => return { options with language := ← once options.language (.ok value) }
  | .indent => return { options with indent := ← once options.indent (count value) }
  | .format => return { options with format := ← once options.format (formatNamed value) }
  | .output => return { options with output := ← once options.output (path value) }

end LowerOptions

/-! ## Invocations -/

/-- What the arguments ask for. -/
inductive Invocation
  | help
  | version
  | lower (demo : String) (options : LowerOptions)
  | demos
  | components
  | misuse (e : UsageError)

/-- What is known in the middle of the arguments. -/
structure Arguments where
  options : LowerOptions
  demo : Option String
  /-- The option whose value comes next. -/
  pending : Option ValueOption
  /-- No more options follow. -/
  closed : Bool

namespace Arguments

/-- No arguments. -/
def empty : Arguments := ⟨.empty, none, none, false⟩

/-- Arguments that make no sense decide the invocation. -/
def reject {α : Type} (e : UsageError) : Except Invocation α := .error (.misuse e)

/-- Gives an option its value. -/
def set (s : Arguments) (o : ValueOption) (value : String) : Except Invocation Arguments :=
  match s.options.set o value with
  | .ok options => .ok { s with options, pending := none }
  | .error e => reject e

/-- An option without a value. -/
def switch (s : Arguments) : Flag → Except Invocation Arguments
  | .help => .error .help
  | .version => .error .version
  | .verbose => .ok s
  | .library =>
    if s.options.library then reject .repeated
    else .ok { s with options := { s.options with library := true } }
  | .noComments =>
    if s.options.noComments then reject .repeated
    else .ok { s with options := { s.options with noComments := true } }
  | .value o => .ok { s with pending := some o }

/-- An option with its long name, and its value behind an equals sign. -/
def long (p : Place) (s : Arguments) (argument : List Char) : Except Invocation Arguments :=
  let name := String.ofList (argument.takeWhile (· ≠ '='))
  match Flag.ofName? p name, argument.dropWhile (· ≠ '=') with
  | some (.value o), _ :: v => s.set o (String.ofList v)
  | some flag, [] => s.switch flag
  | _, _ => reject (.unexpected ("--" ++ String.ofList argument))

/-- Letters of options; behind one that has a value, the rest is the value. -/
def letters (p : Place) (s : Arguments) : List Char → Except Invocation Arguments
  | [] => .ok s
  | c :: r =>
    match Flag.ofLetter? p c, r with
    | some (.value o), '=' :: v => s.set o (String.ofList v)
    | some (.value o), x :: v => s.set o (String.ofList (x :: v))
    | some flag, r => (s.switch flag).bind fun s => s.letters p r
    | none, _ => reject (.unexpected ("-" ++ String.ofList [c]))

/-- The name of the demonstration, if one is expected and not known. -/
def positional (p : Place) (s : Arguments) (argument : String) : Except Invocation Arguments :=
  if p = .lower && s.demo.isNone then .ok { s with demo := some argument }
  else reject (.unexpected argument)

/-- One more argument. -/
def step (p : Place) (s : Arguments) (argument : String) : Except Invocation Arguments :=
  if s.closed then s.positional p argument
  else match s.pending, argument.toList with
    | some _, '-' :: _ :: _ => reject .missingValue
    | some o, _ => s.set o argument
    | none, ['-', '-'] => .ok { s with closed := true }
    | none, '-' :: '-' :: r => s.long p r
    | none, '-' :: c :: r => s.letters p (c :: r)
    | none, _ => s.positional p argument

/-- The arguments behind a command. -/
def read (p : Place) (arguments : List String) : Except Invocation Arguments :=
  (arguments.foldlM (step p) empty).bind fun s =>
    if s.pending.isSome then reject .missingValue else .ok s

end Arguments

namespace Invocation

/-- A command without options. -/
def plain (command : Invocation) (arguments : List String) : Invocation :=
  match Arguments.read .plain arguments with
  | .ok _ => command
  | .error i => i

/-- The command that lowers; the environment may name the settings file. -/
def lowering (environment : Option String) (arguments : List String) : Invocation :=
  match Arguments.read .lower arguments with
  | .error i => i
  | .ok s =>
    match s.demo, s.options.config, environment with
    | none, _, _ => misuse .missingDemo
    | some demo, none, some value =>
      match s.options.set .config value with
      | .ok options => lower demo options
      | .error e => misuse e
    | some demo, _, _ => lower demo s.options

/-- What the arguments ask for. -/
def ofArgs (environment : Option String) : List String → Invocation
  | [] => misuse .missingCommand
  | "lower" :: arguments => lowering environment arguments
  | "demos" :: arguments => plain demos arguments
  | "version" :: arguments => plain components arguments
  | "help" :: arguments =>
    match arguments with
    | [] | ["lower"] | ["demos"] | ["version"] | ["help"] => help
    | argument :: _ => misuse (.unexpected argument)
  | argument :: arguments =>
    if argument = "--" then misuse (.unexpected argument)
    else match Arguments.empty.step .top argument with
      | .ok _ => ofArgs environment arguments
      | .error i => i

end Invocation

end QuantumLowering
