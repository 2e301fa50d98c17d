/-
  Modules are lowered function by function.

  * `Function.code?`, `Function.report?`: what the body of a function is lowered to on its own, and
    the diagnostic if this fails.
  * `Module.LowersEach`: a result of lowering that holds the functions in order with the code of
    their bodies, or else the reports of those that fail.
  * `CachedBlock.Reached`: a block that requests lead to.
  * `CachedModule.lower_reached`: the loop over the functions of a module gives such a result, the
    same as without remembered code, and gives it again the next time.
-/
import QuantumLowering.CachedModule
import QuantumLowering.Proofs.CachedRuns

namespace QuantumLowering

section

variable [Fingerprint]

/-! ## Functions on their own -/

namespace Function

/-- The code that the body of a function is lowered to on its own. -/
def code? (f : Function) : Option (List Instruction) :=
  f.body.bind fun body => (lowerBlock body).toOption

/-- The diagnostic of a function whose body cannot be lowered on its own: the position of the error,
    or that of the function if the error has none. -/
def report? (f : Function) : Option Diagnostic :=
  f.body.bind fun body =>
    match lowerBlock body with
    | .ok _ => none
    | .error e => some ⟨.error, e.location.or f.location, e.reason⟩

theorem lower_eq (f : Function) :
    (f.report? = none ∧ f.lower = .ok ⟨f, f.code?⟩) ∨
      ∃ d, f.report? = some d ∧ f.lower = .error d := by
  unfold report? code? lower
  cases f.body with
  | none => exact .inl ⟨rfl, rfl⟩
  | some body =>
    simp only [Option.bind_some]
    cases lowerBlock body with
    | ok code => exact .inl ⟨rfl, rfl⟩
    | error e => exact .inr ⟨_, rfl, rfl⟩

theorem report?_eq_none_iff {f : Function} :
    f.report? = none ↔ ∀ body, f.body = some body → ∃ code, lowerBlock body = .ok code := by
  unfold report?
  cases f.body with
  | none => simp
  | some body =>
    simp only [Option.bind_some, Option.some.injEq, forall_eq']
    cases lowerBlock body with
    | ok code => simp
    | error e => simp

theorem severity_report? {f : Function} {d : Diagnostic} (h : f.report? = some d) :
    d.severity = .error := by
  unfold report? at h
  obtain ⟨body, -, hd⟩ := Option.bind_eq_some_iff.1 h
  split at hd
  · cases hd
  · obtain rfl := Option.some.inj hd
    rfl

/-- The functions that are lowered on their own, each with the code of its body. -/
def lowered (fs : List Function) : List LoweredFunction :=
  (fs.filter fun f => f.report?.isNone).map fun f => ⟨f, f.code?⟩

/-- The diagnostics of the functions that are not. -/
def reports (fs : List Function) : List Diagnostic := fs.filterMap report?

variable {f : Function} {fs : List Function}

theorem lowered_of_reports_eq_nil (h : reports fs = []) :
    lowered fs = fs.map fun f => ⟨f, f.code?⟩ := by
  have hnone : ∀ f ∈ fs, f.report?.isNone := fun f hf => by
    rw [List.filterMap_eq_nil_iff.1 h f hf]
    rfl
  rw [lowered, List.filter_eq_self.2 hnone]

/-- A function that is lowered comes after those before it. -/
theorem append_of_report?_eq_none (fs : List Function) (h : f.report? = none) :
    lowered (fs ++ [f]) = lowered fs ++ [⟨f, f.code?⟩] ∧ reports (fs ++ [f]) = reports fs := by
  simp [lowered, reports, h]

/-- So does the diagnostic of one that is not. -/
theorem append_of_report?_eq_some {d : Diagnostic} (fs : List Function)
    (h : f.report? = some d) :
    lowered (fs ++ [f]) = lowered fs ∧ reports (fs ++ [f]) = reports fs ++ [d] := by
  simp [lowered, reports, h]

end Function

open QuantumLowering.Function (lowered reports)

namespace Module

/-- The result of lowering a module is what its functions give on their own. -/
structure LowersEach (m : Module) (result : Except (List Diagnostic) LoweredModule) : Prop where
  isOk_iff : (∃ l, result = .ok l) ↔
    ∀ f ∈ m.functions, ∀ body, f.body = some body → ∃ code, lowerBlock body = .ok code
  /-- All functions in order, each with the code of its body. -/
  ok : ∀ l, result = .ok l → l = ⟨m.constants, m.functions.map fun f => ⟨f, f.code?⟩⟩
  /-- One report for each function that fails, in order. -/
  error : ∀ ds, result = .error ds → ds ≠ [] ∧ ds = m.functions.filterMap Function.report?

theorem reports_eq_nil_iff {fs : List Function} : reports fs = [] ↔
    ∀ f ∈ fs, ∀ body, f.body = some body → ∃ code, lowerBlock body = .ok code := by
  simp only [reports, List.filterMap_eq_nil_iff, Function.report?_eq_none_iff]

/-- To lower a module is to lower its functions, and to give up if one of them is reported. -/
theorem lowersEach_of_reports {m : Module} {result : Except (List Diagnostic) LoweredModule}
    (hok : reports m.functions = [] → result = .ok ⟨m.constants, lowered m.functions⟩)
    (herror : reports m.functions ≠ [] → result = .error (reports m.functions)) :
    m.LowersEach result := by
  by_cases h : reports m.functions = []
  · rw [hok h, Function.lowered_of_reports_eq_nil h]
    refine ⟨⟨fun _ => reports_eq_nil_iff.1 h, fun _ => ⟨_, rfl⟩⟩, ?_, ?_⟩
    · intro l hl
      exact (Except.ok.inj hl).symm
    · intro ds hds
      cases hds
  · rw [herror h]
    refine ⟨⟨?_, ?_⟩, ?_, ?_⟩
    · rintro ⟨l, hl⟩
      cases hl
    · intro hall
      exact absurd (reports_eq_nil_iff.2 hall) h
    · intro l hl
      cases hl
    · intro ds hds
      obtain rfl := Except.error.inj hds
      exact ⟨h, rfl⟩

/-- There is only one such result. -/
theorem LowersEach.unique {m : Module} {r r' : Except (List Diagnostic) LoweredModule}
    (h : m.LowersEach r) (h' : m.LowersEach r') : r = r' := by
  have hiff : (∃ l, r = .ok l) ↔ ∃ l, r' = .ok l := h.isOk_iff.trans h'.isOk_iff.symm
  cases r with
  | ok l =>
    obtain ⟨l', rfl⟩ := hiff.1 ⟨l, rfl⟩
    rw [h.ok l rfl, h'.ok l' rfl]
  | error ds =>
    cases r' with
    | ok l' =>
      obtain ⟨l, hl⟩ := hiff.2 ⟨l', rfl⟩
      cases hl
    | error ds' => rw [(h.error ds rfl).2, (h'.error ds' rfl).2]

theorem partition_eq (fs : List Function) : partition fs = (lowered fs, reports fs) := by
  induction fs with
  | nil => rfl
  | cons f fs ih =>
    rw [partition, ih]
    rcases f.lower_eq with ⟨hreport, hlower⟩ | ⟨d, hreport, hlower⟩
    · simp [hlower, hreport, lowered, reports]
    · simp [hlower, hreport, lowered, reports]

/-- A module that remembers nothing is lowered function by function. -/
theorem lowersEach_lower (m : Module) : m.LowersEach m.lower := by
  unfold lower
  rw [partition_eq]
  refine lowersEach_of_reports (fun h => ?_) (fun h => ?_)
  · rw [h]
  · split
    · rename_i heq
      exact absurd (congrArg Prod.snd heq) h
    · rename_i heq
      obtain ⟨-, rfl⟩ := Prod.mk.inj heq
      rfl

end Module

/-! ## Functions that remember -/

/-- A block that requests lead to. -/
def CachedBlock.Reached (b : CachedBlock) : Prop :=
  ∃ requests, b ∈ (BlockKind.cached.serveAll [] requests).2

theorem CachedBlock.Reached.fresh {b : CachedBlock} (h : b.Reached) : b.Fresh := by
  obtain ⟨requests, hb⟩ := h
  exact (BlockKind.agrees_serveAll requests fun _ h => absurd h List.not_mem_nil).fresh b hb

namespace CachedFunction

/-- The body remembers nothing but the code of its statements. -/
def Fresh (f : CachedFunction) : Prop := ∀ b, f.body = some b → b.Fresh

/-- What is remembered changes nothing about how a function is lowered. -/
theorem Fresh.lower {f : CachedFunction} (h : f.Fresh) :
    f.lower.1 = f.plain.lower ∧ f.lower.2.plain = f.plain ∧ f.lower.2.Fresh := by
  obtain ⟨name, kind, body, location⟩ := f
  cases body with
  | none => exact ⟨rfl, rfl, h⟩
  | some b =>
    have hb : b.Fresh := h b rfl
    have hcode := hb.decompose_eq
    have hstatements := b.statements_decompose
    have hfresh := hb.decompose
    have hkeeps : ∀ c ∈ some b.decompose.2, c.Fresh := fun c hc => Option.some.inj hc ▸ hfresh
    simp only [CachedFunction.lower, Function.lower, plain, Option.map_some, ← hcode]
    rcases hdecompose : b.decompose with ⟨e | code, b'⟩
    · rw [hdecompose] at hstatements hkeeps
      exact ⟨rfl, by simpa using hstatements, hkeeps⟩
    · rw [hdecompose] at hstatements hkeeps
      exact ⟨rfl, by simpa using hstatements, hkeeps⟩

end CachedFunction

/-! ## The loop over the functions -/

namespace CachedModule

/-- The loop has passed the functions `fs`. -/
structure Passed (fs : List Function) (p : Progress) : Prop where
  lowered : p.lowered = lowered fs
  diagnostics : p.diagnostics = reports fs
  plain : p.passed.map CachedFunction.plain = fs
  fresh : ∀ f ∈ p.passed, f.Fresh

variable {fs : List Function} {p : Progress}

theorem step_eq (p : Progress) (f : CachedFunction) :
    step p f = match f.lower.1 with
      | .ok g => ⟨p.lowered ++ [g], p.diagnostics, p.passed ++ [f.lower.2]⟩
      | .error d => ⟨p.lowered, p.diagnostics ++ [d], p.passed ++ [f.lower.2]⟩ := by
  unfold step
  rcases f.lower with ⟨d | g, f'⟩ <;> rfl

/-- One more function is lowered or reported for its own sake. -/
theorem Passed.step (h : Passed fs p) {f : CachedFunction} (hf : f.Fresh) :
    Passed (fs ++ [f.plain]) (step p f) := by
  obtain ⟨hlower, hplain, hfresh⟩ := hf.lower
  have hpassed : (p.passed ++ [f.lower.2]).map CachedFunction.plain = fs ++ [f.plain] := by
    rw [List.map_append, h.plain, List.map_singleton, hplain]
  have hall : ∀ g ∈ p.passed ++ [f.lower.2], g.Fresh := by
    intro g hg
    rcases List.mem_append.1 hg with hg | hg
    · exact h.fresh g hg
    · rwa [List.mem_singleton.1 hg]
  rw [step_eq, hlower]
  rcases f.plain.lower_eq with ⟨hreport, heq⟩ | ⟨d, hreport, heq⟩
  · obtain ⟨hl, hr⟩ := Function.append_of_report?_eq_none fs hreport
    rw [heq]
    exact ⟨by rw [hl, h.lowered], by rw [hr, h.diagnostics], hpassed, hall⟩
  · obtain ⟨hl, hr⟩ := Function.append_of_report?_eq_some fs hreport
    rw [heq]
    exact ⟨by rw [hl, h.lowered], by rw [hr, h.diagnostics], hpassed, hall⟩

theorem Passed.foldl {gs : List CachedFunction} (h : Passed fs p) (hgs : ∀ f ∈ gs, f.Fresh) :
    Passed (fs ++ gs.map CachedFunction.plain) (gs.foldl CachedModule.step p) := by
  induction gs generalizing fs p with
  | nil => simpa using h
  | cons f gs ih =>
    obtain ⟨hf, hgs⟩ := List.forall_mem_cons.1 hgs
    have hrest := ih (h.step hf) hgs
    rwa [List.append_assoc] at hrest

/-- Reports are errors, so that a module with any is not lowered. -/
theorem anyError_reports (h : reports fs ≠ []) : Diagnostic.anyError (reports fs) = true := by
  obtain ⟨d, hd⟩ := List.exists_mem_of_ne_nil _ h
  obtain ⟨f, -, hf⟩ := List.mem_filterMap.1 hd
  refine List.any_eq_true.2 ⟨d, hd, ?_⟩
  simp [Function.severity_report? hf]

/-- The module after it was lowered is as fresh as before. -/
theorem lower_fresh (m : CachedModule) (h : ∀ f ∈ m.functions, f.Fresh) :
    m.plain.LowersEach m.lower.1 ∧ m.lower.2.plain = m.plain ∧
      ∀ f ∈ m.lower.2.functions, f.Fresh := by
  have hstart : Passed [] ⟨[], [], []⟩ := ⟨rfl, rfl, rfl, fun f hf => absurd hf List.not_mem_nil⟩
  obtain ⟨hlowered, hdiagnostics, hplain, hfresh⟩ := hstart.foldl h
  rw [List.nil_append] at hlowered hdiagnostics hplain
  refine ⟨Module.lowersEach_of_reports (fun hnil => ?_) (fun hreports => ?_), ?_, hfresh⟩
  · change reports (m.functions.map CachedFunction.plain) = [] at hnil
    simp only [lower, hlowered, hdiagnostics, hnil]
    rfl
  · change reports (m.functions.map CachedFunction.plain) ≠ [] at hreports
    simp only [lower, hdiagnostics, anyError_reports hreports]
    rfl
  · exact congrArg (Module.mk m.constants) hplain

/-- **A module is lowered function by function.**  It is lowered exactly if every function with a
    body is lowered on its own: the result then has all functions in order, each with the code that
    its body has on its own, and none for those without a body.  Otherwise the result is one error
    for each function that fails, in order, located at the error or else at the function.  Whatever
    the bodies remember, the result is that of a module that remembers nothing, and lowering the
    module once more gives it again. -/
theorem lower_reached (m : CachedModule)
    (h : ∀ f ∈ m.functions, ∀ b, f.body = some b → b.Reached) :
    m.plain.LowersEach m.lower.1 ∧ m.lower.1 = m.plain.lower ∧ m.lower.2.plain = m.plain ∧
      m.lower.2.lower.1 = m.lower.1 := by
  have hfresh : ∀ f ∈ m.functions, f.Fresh := fun f hf b hb => (h f hf b hb).fresh
  have hfirst := m.lower_fresh hfresh
  have hsecond := m.lower.2.lower_fresh hfirst.2.2
  rw [hfirst.2.1] at hsecond
  exact ⟨hfirst.1, hfirst.1.unique m.plain.lowersEach_lower, hfirst.2.1,
    hsecond.1.unique hfirst.1⟩

end CachedModule

end

namespace CachedModule

/-- A body with one call that was lowered before. -/
def called (operation : Operation) (size : Int64) (location : Option Location) :
    Option CachedBlock :=
  let target : Qubits := .register ⟨"t", .const size, .owner⟩
  (BlockKind.cached.serveAll [] [.create [.call operation target location], .decompose 0]).2.head?

theorem called_reached {operation : Operation} {size : Int64} {location : Option Location}
    {b : CachedBlock} (h : called operation size location = some b) : b.Reached :=
  ⟨[.create [.call operation (.register ⟨"t", .const size, .owner⟩) location], .decompose 0],
    List.mem_of_head? h⟩

/-- An operation on an even number of qubits, called on four and on three of them. -/
def evenAndOdd : CachedModule :=
  let q : QuantumVariable := ⟨"q", .const 2 * .named "n", .owner⟩
  let pairs : Operation := .elementary (.call ⟨"pairs", [], ⟨q, some "n"⟩, none⟩ []) none
  let line (n : Nat) : Option Location := some ⟨some "lib.qf", n, 1⟩
  let function (name : String) (body : Option CachedBlock) (n : Nat) : CachedFunction :=
    ⟨name, .operation true [] [], body, line n⟩
  ⟨[], [function "elsewhere" none 1, function "odd" (called pairs 3 none) 2,
    function "even" (called pairs 4 none) 3, function "alsoOdd" (called pairs 3 (line 9)) 4]⟩

/-- One function is implemented elsewhere, and two of the three others fail. -/
theorem lower_reached_evenAndOdd :
    (∀ f ∈ evenAndOdd.functions, ∀ b, f.body = some b → b.Reached) ∧
      (evenAndOdd.plain.functions.map fun f => (f.body.isSome, f.code?.isSome)) =
        [(false, false), (true, false), (true, true), (true, false)] ∧
      evenAndOdd.plain.LowersEach evenAndOdd.lower.1 := by
  have hreached : ∀ f ∈ evenAndOdd.functions, ∀ b, f.body = some b → b.Reached := by
    simp only [evenAndOdd, List.forall_mem_cons]
    refine ⟨fun b hb => ?_, fun b => called_reached, fun b => called_reached,
      fun b => called_reached, fun f hf => absurd hf List.not_mem_nil⟩
    cases hb
  exact ⟨hreached, by cbv, (evenAndOdd.lower_reached hreached).1⟩

end CachedModule

end QuantumLowering
