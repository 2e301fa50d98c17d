/-
  Modules whose functions remember their lowered bodies.

  * `CachedFunction`: a function whose body is a block that remembers its lowering.
  * `CachedModule.lower`: goes over the functions in order and collects those that are lowered and
    the diagnostics of the others; bodies remember what they were lowered to.
-/
import QuantumLowering.CachedBlock
import QuantumLowering.Module

namespace QuantumLowering

/-- A function whose body remembers its lowering. -/
structure CachedFunction where
  name : String
  kind : FunctionKind
  body : Option CachedBlock
  location : Option Location

/-- A module of such functions. -/
structure CachedModule where
  constants : List Constant
  functions : List CachedFunction

namespace CachedFunction

/-- The function without what its body remembers. -/
def plain (f : CachedFunction) : Function :=
  ⟨f.name, f.kind, f.body.map (·.statements), f.location⟩

/-- The lowered function or its diagnostic, and the function with what its body remembers then. -/
def lower [Fingerprint] (f : CachedFunction) : Except Diagnostic LoweredFunction × CachedFunction :=
  match f.body with
  | none => (.ok ⟨f.plain, none⟩, f)
  | some b =>
    match b.decompose with
    | (.ok code, b) => (.ok ⟨f.plain, some code⟩, { f with body := some b })
    | (.error e, b) =>
      (.error ((Diagnostic.ofLowering e).withDefault f.location), { f with body := some b })

end CachedFunction

namespace CachedModule

/-- The module without what its bodies remember. -/
def plain (m : CachedModule) : Module := ⟨m.constants, m.functions.map CachedFunction.plain⟩

/-- What the way over the functions has come to. -/
structure Progress where
  lowered : List LoweredFunction
  diagnostics : List Diagnostic
  /-- The functions that were passed, with what their bodies remember now. -/
  passed : List CachedFunction

/-- Lowers one more function. -/
def step [Fingerprint] (p : Progress) (f : CachedFunction) : Progress :=
  match f.lower with
  | (.ok g, f) => ⟨p.lowered ++ [g], p.diagnostics, p.passed ++ [f]⟩
  | (.error d, f) => ⟨p.lowered, p.diagnostics ++ [d], p.passed ++ [f]⟩

/-- All functions lowered, or one diagnostic for each that is not, and the module with what its
    bodies remember then. -/
def lower [Fingerprint] (m : CachedModule) :
    Except (List Diagnostic) LoweredModule × CachedModule :=
  let p := m.functions.foldl step ⟨[], [], []⟩
  (if Diagnostic.anyError p.diagnostics then .error p.diagnostics
    else .ok ⟨m.constants, p.lowered⟩,
    ⟨m.constants, p.passed⟩)

end CachedModule

end QuantumLowering
