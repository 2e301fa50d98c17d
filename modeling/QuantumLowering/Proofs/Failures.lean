/-
  What a lowering that failed leaves behind.

  * `Lowering.Drops`: the stack after a failure differs from the stack before by declarations in
    the innermost frame, whose code is dropped with the rest.  A later lowering takes them for
    made, so its code is well scoped only behind them.
  * `Lowering.Framed`: computations that leave the stack as it was with every outcome.
  * `lowerStatements_error`: a list fails at one of its statements, and what was lowered before
    it has been declared.
  * `drops_of_error`: a failed lowering drops the declarations of the statements before the
    failing one, and those that the failing one has made in the same frame.
-/
import QuantumLowering.Proofs.Declarations
import QuantumLowering.Proofs.Frames
import QuantumLowering.TextHash

namespace QuantumLowering

open Instruction

/-- Whether a statement is lowered in a frame of its own. -/
def Statement.hasFrame : Statement → Bool
  | .loop .. | .ifThen .. | .ifElse .. | .dagger .. | .within .. => true
  | .primitive _ | .call .. | .mux .. => false

namespace Lowering

variable {α β : Type} {s s' : Scopes} {dropped : List Qubits}

/-! ## Dropped declarations -/

/-- The stack `s'` is `s` with the declarations `dropped`, of which there is no code. -/
structure Drops [Fingerprint] (s s' : Scopes) (dropped : List Qubits) : Prop where
  depth : s'.depth = s.depth
  outer : s'.outer = s.outer
  innermost : s'.innermost = dropped.reverse ++ s.innermost
  isDeclared_iff : ∀ q, s'.isDeclared q ↔ (∃ r ∈ dropped, q == r) ∨ s.isDeclared q
  /-- All answers are as before only if nothing was dropped. -/
  unchanged_iff : (∀ q, s'.isDeclared q = s.isDeclared q) ↔ dropped = []
  /-- Code that is lowered later declares what it needs, but for what was dropped. -/
  later : ∀ {sts code t}, Statement.allFlat sts → Yields (lowerStatements sts) s' code t →
    s.walk (declarations dropped ++ code) = some t

theorem drops_of_declares [Fingerprint] (h : Scopes.Declares s dropped s') :
    Drops s s' dropped := by
  have hiff : ∀ q, s'.isDeclared q ↔ (∃ r ∈ dropped, q == r) ∨ s.isDeclared q := by
    intro q
    rw [h.eq_declareAll, Scopes.isDeclared_declareAll]
  refine ⟨h.depth_eq, h.outer_eq, h.innermost_eq, hiff, ⟨?_, ?_⟩, ?_⟩
  · intro hsame
    refine List.eq_nil_iff_forall_not_mem.2 fun q hq => h.not_isDeclared hq ?_
    rw [← hsame q, hiff]
    exact .inl ⟨q, hq, BEq.rfl⟩
  · rintro rfl q
    rw [Bool.eq_iff_iff, hiff]
    simp
  · intro sts code t hf hlater
    exact ((Emits.declarations h).append (lowerStatements_emits hf hlater)).walk_eq

/-! ## Statements with a frame of their own -/

/-- The stack afterwards is the stack before, with every outcome. -/
def Framed (x : Lowering α) : Prop := ∀ s, (x s).2 = s

theorem Framed.pure {a : α} : Framed (Pure.pure a : Lowering α) := fun _ => rfl

theorem Framed.bind {x : Lowering α} {f : α → Lowering β} (hx : Framed x)
    (hf : ∀ a, Framed (f a)) : Framed (x >>= f) := by
  intro s
  have hs := hx s
  rcases hxs : x s with ⟨e | a, t⟩
  · rw [bind_of_error hxs]
    rwa [hxs] at hs
  · rw [bind_of_ok hxs, hf a t]
    rwa [hxs] at hs

/-- A statement with a frame of its own leaves no declaration, whether it succeeds or fails. -/
theorem framed_lowerStatement [Fingerprint] {st : Statement} (h : st.hasFrame) :
    Framed (lowerStatement st) := by
  cases st with
  | primitive | call | mux => simp [Statement.hasFrame] at h
  | loop | ifThen | dagger =>
    rw [lowerStatement]
    exact .bind (lowerStatements_declaring _).snd_nested fun _ => .pure
  | ifElse =>
    rw [lowerStatement]
    refine .bind (lowerStatements_declaring _).snd_nested fun _ => ?_
    exact .bind (lowerStatements_declaring _).snd_nested fun _ => .pure
  | within compute body =>
    rw [lowerStatement]
    have hparts := (lowerStatements_declaring compute).pair (lowerStatements_declaring body)
    exact .bind hparts.snd_nested fun _ => .pure

/-! ## Failures -/

/-- A list of statements fails at one of them, after those before it were lowered. -/
theorem lowerStatements_error [Fingerprint] {e : LoweringError} : ∀ {sts : List Statement}
    {s : Scopes}, lowerStatements sts s = (.error e, s') → ∃ before st after code u,
      sts = before ++ st :: after ∧ Yields (lowerStatements before) s code u ∧
        lowerStatement st u = (.error e, s')
  | [], s, h => by
    rw [lowerStatements] at h
    cases h
  | st :: sts, s, h => by
    rw [lowerStatements] at h
    rcases hst : lowerStatement st s with ⟨e' | first, t⟩
    · rw [bind_of_error hst] at h
      cases h
      exact ⟨[], st, sts, [], s, rfl, by simp [lowerStatements, yields_pure], hst⟩
    · rw [bind_of_ok hst] at h
      rcases hsts : lowerStatements sts t with ⟨e' | rest, t'⟩
      · rw [bind_of_error hsts] at h
        cases h
        obtain ⟨before, st', after, code, u, rfl, hbefore, hst'⟩ := lowerStatements_error hsts
        refine ⟨st :: before, st', after, first ++ code, u, rfl, ?_, hst'⟩
        simp only [lowerStatements, yields_bind, yields_pure]
        exact ⟨first, t, by simp [Yields, hst], code, u, hbefore, rfl, rfl⟩
      · rw [bind_of_ok hsts] at h
        cases h

/-- **A failed lowering leaves the declarations it has made in the innermost frame**: those of
    the statements before the failing one, and those that the failing one has made there.
    Everything else is as before. -/
theorem drops_of_error [Fingerprint] (e : LoweringError) (s s' : Scopes) :
    (∀ (op : Operation) (target : Qubits) (site : Option Location),
        lowerCall target site op s = (.error e, s') → ∃ dropped, Drops s s' dropped) ∧
      ∀ sts : List Statement, lowerStatements sts s = (.error e, s') →
        ∃ before st after code u made own, sts = before ++ st :: after ∧
          Yields (lowerStatements before) s code u ∧ lowerStatement st u = (.error e, s') ∧
          (Statement.allUnmarked before → made = frameDeclarations 0 code) ∧
          (st.hasFrame → own = []) ∧ Drops s s' (made ++ own) := by
  constructor
  · intro op target site h
    obtain ⟨dropped, hdropped, -⟩ := lowerCall_declaring op target site s
    rw [h] at hdropped
    exact ⟨dropped, drops_of_declares hdropped⟩
  · intro sts h
    obtain ⟨before, st, after, code, u, rfl, hbefore, hst⟩ := lowerStatements_error h
    obtain ⟨made, hmade, hfills⟩ := lowerStatements_declaring before s
    obtain ⟨own, hown, -⟩ := lowerStatement_declaring st u
    rw [hbefore.2] at hmade
    rw [hst] at hown
    refine ⟨before, st, after, code, u, made, own, rfl, hbefore, hst, ?_, ?_,
      drops_of_declares (hmade.append hown)⟩
    · intro hu
      exact (hfills code hbefore.1 hu).eq.symm
    · intro hframe
      have hsame : s' = u := by
        have := framed_lowerStatement hframe u
        rwa [hst] at this
      exact (drops_of_declares hown).unchanged_iff.1 fun q => by rw [hsame]

/-- A register of four qubits. -/
def fourQubits : Qubits := .register ⟨"q", .const 4, .owner⟩

/-- The first of four qubits. -/
def firstOfFour : Qubits := .single fourQubits (.const 0)

/-- An operation on a register of any size. -/
def anySize : Definition := ⟨"any", [], ⟨⟨"r", .named "n", .reference⟩, some "n"⟩, none⟩

/-- A gate on an element of a register, and two operations that would both take their size from
    the register. -/
def ambiguous : List Statement :=
  [.call (.ofGate .x) firstOfFour none,
    .call (.combination [.elementary (.call anySize []) none, .elementary (.call anySize []) none]
      none) fourQubits none]

theorem drops_of_error_ambiguous :
    ∃ e, lowerStatements ambiguous Scopes.initial = (.error e, Scopes.initial.declare firstOfFour) ∧
      ∃ before st after code u made own, ambiguous = before ++ st :: after ∧
        Yields (lowerStatements before) Scopes.initial code u ∧
        lowerStatement st u = (.error e, Scopes.initial.declare firstOfFour) ∧
        (Statement.allUnmarked before → made = frameDeclarations 0 code) ∧
        (st.hasFrame → own = []) ∧
        Drops Scopes.initial (Scopes.initial.declare firstOfFour) (made ++ own) :=
  ⟨_, rfl, (drops_of_error _ _ _).2 ambiguous rfl⟩

theorem lowerStatements_firstOfFour :
    lowerStatements [.call (.ofGate .x) firstOfFour none] (Scopes.initial.declare firstOfFour) =
      (.ok [.act (.apply (.gate .x) firstOfFour) none], Scopes.initial.declare firstOfFour) := by
  have huse : use firstOfFour (Scopes.initial.declare firstOfFour) =
      (.ok [], Scopes.initial.declare firstOfFour) := by
    rw [use, Scopes.use_of_isUsable (by simp [Scopes.isUsable])]
    rfl
  have hcall : lowerCall firstOfFour none (.ofGate .x) (Scopes.initial.declare firstOfFour) =
      (.ok [.act (.apply (.gate .x) firstOfFour) none], Scopes.initial.declare firstOfFour) := by
    rw [Operation.ofGate, lowerCall]
    exact bind_of_ok huse
  rw [lowerStatements, lowerStatement, bind_of_ok hcall, lowerStatements]
  rfl

/-- After the failure the element counts as declared, so a later gate on it is lowered without
    its declaration. -/
theorem isDeclared_after_failure :
    (∃ e, lowerStatements ambiguous Scopes.initial =
        (.error e, Scopes.initial.declare firstOfFour)) ∧
      Scopes.initial.isDeclared firstOfFour = false ∧
      (Scopes.initial.declare firstOfFour).isDeclared firstOfFour = true ∧
      (lowerStatements [.call (.ofGate .x) firstOfFour none]
          (Scopes.initial.declare firstOfFour)).1 =
        .ok [.act (.apply (.gate .x) firstOfFour) none] ∧
      Scopes.initial.walk [.act (.apply (.gate .x) firstOfFour) none] = none := by
  refine ⟨⟨_, rfl⟩, rfl, by simp, by rw [lowerStatements_firstOfFour], rfl⟩

end Lowering

end QuantumLowering
