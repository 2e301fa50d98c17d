/-
  Lowered code declares before use, and only once.

  * `Walk`: where a walk through a tree of code has come to, with the declarations that are
    visible there.
  * `Walk.step`: one instruction; it fails at qubits named without a visible declaration, at
    a declaration of qubits that are visible already, and at an unbalanced region marker.
  * `Scopes.walk`: a whole list.  Bodies and branches are scopes of their own, adjoint regions
    are scopes between their markers, and a compute block is one scope for both its parts.
  * `walk_lowerBlock`: the walk through a lowered block succeeds, and its scopes are those that
    the lowering has kept.
-/
import QuantumLowering.Proofs.Derivation
import QuantumLowering.TextHash

namespace QuantumLowering

/-- A place in a tree of code: the visible declarations, and the number of adjoint regions of
    the present list that are still open. -/
structure Walk where
  scopes : Scopes
  regions : Nat

namespace Walk

/-- The scopes at the end of a list; all its adjoint regions have to be closed. -/
def finish (p : Walk) : Option Scopes := if p.regions = 0 then some p.scopes else none

mutual
/-- Walks over one instruction. -/
def step (p : Walk) : Instruction → Option Walk
  | .act (.declare q) _ =>
    if q.parts.all p.scopes.isUsable && !p.scopes.isDeclared q then
      some { p with scopes := p.scopes.declare q }
    else none
  | .act .beginDagger _ => some ⟨p.scopes.enter, p.regions + 1⟩
  | .act .endDagger _ => if p.regions = 0 then none else some ⟨p.scopes.leave, p.regions - 1⟩
  | .act a _ => if a.qubits.all p.scopes.isUsable then some p else none
  | .loop _ _ body _ | .ifThen _ body _ =>
    ((run ⟨p.scopes.enter, 0⟩ body).bind finish).map fun _ => p
  | .ifElse _ onTrue onFalse _ =>
    ((run ⟨p.scopes.enter, 0⟩ onTrue).bind finish).bind fun _ =>
      ((run ⟨p.scopes.enter, 0⟩ onFalse).bind finish).map fun _ => p
  | .within compute body _ =>
    ((run ⟨p.scopes.enter, 0⟩ compute).bind finish).bind fun s =>
      ((run ⟨s, 0⟩ body).bind finish).map fun _ => p

/-- Walks over a list. -/
def run (p : Walk) : List Instruction → Option Walk
  | [] => some p
  | i :: is => (p.step i).bind fun p' => p'.run is
end

theorem run_append {p : Walk} {a b : List Instruction} :
    p.run (a ++ b) = (p.run a).bind fun p' => p'.run b := by
  induction a generalizing p with
  | nil => simp [run]
  | cons i is ih => cases h : p.step i <;> simp [run, h, ih]

theorem step_act (p : Walk) {a : Action} {l : Option Location} (ha : a.isPlain)
    (hq : ∀ q ∈ a.qubits, p.scopes.isUsable q) : p.step (.act a l) = some p := by
  cases a <;> simp_all [step, Action.isPlain]

/-- A derivation is a walk. -/
theorem run_of_emits {s s' : Scopes} {code : List Instruction} (h : Emits s code s') :
    ∀ n, run ⟨s, n⟩ code = some ⟨s', n⟩ := by
  induction h with
  | nil => intro n; simp [run]
  | append _ _ ih₁ ih₂ => intro n; simp [run_append, ih₁ n, ih₂ n]
  | declare _ hn hp => intro n; simp [run, step, List.all_eq_true.2 hp, hn]
  | act ha hq => intro n; simp [run, step_act ⟨_, n⟩ ha hq]
  | dagger h ih => intro n; simp [run, run_append, step, ih (n + 1), h.leave_eq]
  | loop _ ih => intro n; simp [run, step, ih 0, finish]
  | ifThen _ ih => intro n; simp [run, step, ih 0, finish]
  | ifElse _ _ ih₁ ih₂ => intro n; simp [run, step, ih₁ 0, ih₂ 0, finish]
  | within _ _ ih₁ ih₂ => intro n; simp [run, step, ih₁ 0, ih₂ 0, finish]

end Walk

/-- The visible declarations at the end of a list, if it declares before use and only once. -/
def Scopes.walk (s : Scopes) (code : List Instruction) : Option Scopes :=
  (Walk.run ⟨s, 0⟩ code).bind Walk.finish

theorem Emits.walk_eq {s s' : Scopes} {code : List Instruction} (h : Emits s code s') :
    s.walk code = some s' := by
  simp [Scopes.walk, Walk.run_of_emits h, Walk.finish]

/-- **Lowered code declares before use, and only once.** -/
theorem walk_lowerBlock [Fingerprint] {statements : List Statement} {code : List Instruction}
    (hf : Statement.allFlat statements) (h : lowerBlock statements = .ok code) :
    Scopes.initial.walk code = some (Lowering.lowerStatements statements Scopes.initial).2 := by
  obtain ⟨s, hs⟩ := Lowering.lowerBlock_eq_ok h
  rw [hs.2]
  exact (Lowering.lowerStatements_emits hf hs).walk_eq

/-- An adjoint region inside a loop, with an element declared in the region. -/
theorem walk_lowerBlock_nested :
    Scopes.initial.walk
        [.loop ⟨"i", .int⟩ (.upTo (.const 0) (.const 3))
          [.act .beginDagger none,
            .act (.declare (.single (.register ⟨"q", .const 2, .owner⟩) (.const 0))) none,
            .act (.apply (.gate .x) (.single (.register ⟨"q", .const 2, .owner⟩) (.const 0))) none,
            .act .endDagger none] none] =
      some (Lowering.lowerStatements
        [.loop ⟨"i", .int⟩ (.upTo (.const 0) (.const 3))
          [.dagger [.call (.ofGate .x)
            (.single (.register ⟨"q", .const 2, .owner⟩) (.const 0)) none] none] none]
        Scopes.initial).2 :=
  walk_lowerBlock rfl rfl

end QuantumLowering
