/-
  Unrolling lists of instructions.

  * `unrollAll_append`, `unrollAll_behind`: lists one after another, and behind declarations.
  * `LoopRange.values_upTo`: the loop of a tensor power counts its copies.
  * `Mux.unrollAll_pair`: two blocks under one control.
-/
import QuantumLowering.Proofs.Reading

namespace QuantumLowering

open Instruction

variable {I : Interpretation} {ρ : String → Int64}

theorem unrollAll_append {a b : List Instruction} {xs ys : List Step}
    (ha : unrollAll I ρ a = some xs) (hb : unrollAll I ρ b = some ys) :
    unrollAll I ρ (a ++ b) = some (xs ++ ys) := by
  induction a generalizing xs with
  | nil =>
    obtain rfl : [] = xs := by simpa [unrollAll] using ha
    exact hb
  | cons i is ih =>
    simp only [unrollAll, Option.bind_eq_some_iff, Option.map_eq_some_iff] at ha
    obtain ⟨first, hfirst, rest, hrest, rfl⟩ := ha
    simp [unrollAll, hfirst, ih hrest]

theorem unrollAll_act {a : Action} {l : Option Location} {xs : List Step}
    (h : a.unroll I ρ = some xs) : unrollAll I ρ [.act a l] = some xs := by
  simp [unrollAll, unroll, h]

/-- Declarations are no steps. -/
theorem unrollAll_declarations (qs : List Qubits) : unrollAll I ρ (declarations qs) = some [] := by
  induction qs with
  | nil => rfl
  | cons q qs ih =>
    exact unrollAll_append (a := [.act (.declare q) none]) (unrollAll_act rfl) ih

theorem unrollAll_behind {qs : List Qubits} {code : List Instruction} {xs : List Step}
    (h : unrollAll I ρ code = some xs) : unrollAll I ρ (declarations qs ++ code) = some xs :=
  unrollAll_append (unrollAll_declarations qs) h

/-- Two maps that agree and are defined on a list. -/
theorem mapM_eq_of_forall {α β : Type} {f g : α → Option β} {xs : List α}
    (h : ∀ x ∈ xs, ∃ y, f x = some y ∧ g x = some y) :
    ∃ ys, xs.mapM f = some ys ∧ xs.mapM g = some ys := by
  induction xs with
  | nil => exact ⟨[], rfl, rfl⟩
  | cons x xs ih =>
    obtain ⟨y, hf, hg⟩ := h x (by simp)
    obtain ⟨ys, hfs, hgs⟩ := ih fun z hz => h z (by simp [hz])
    exact ⟨y :: ys, by simp [hf, hfs], by simp [hg, hgs]⟩

/-- The loop of a tensor power counts its copies. -/
theorem LoopRange.values_upTo {copies : Quantity} {n : Nat} (hn : fits64 n)
    (h : copies.constant? = some (Int64.ofNat n)) :
    (LoopRange.upTo (.const 0) copies).values I ρ = some ((List.range n).map Int64.ofNat) := by
  have hstart : (Quantity.const 0).value I ρ = 0 := by
    rw [Quantity.value_eq_eval, Quantity.eval_const]
  have hstep : (Quantity.const 1).value I ρ = 1 := by
    rw [Quantity.value_eq_eval, Quantity.eval_const]
  have hstop : copies.value I ρ = Int64.ofNat n := by
    rw [Quantity.value_eq_eval, Quantity.eval_of_constant? h]
  have h0 : (0 : Int64).toInt = 0 := rfl
  have h1 : (1 : Int64).toInt = 1 := rfl
  simp [LoopRange.values, LoopRange.upTo, hstart, hstep, hstop, h0, h1, toInt_ofNat hn]
  exact fun _ _ => rfl

/-! ## Blocks under a control -/

/-- One control with two blocks: the control is opened on false and then on true. -/
theorem Mux.linearize_pair {control : Qubits} {whereFalse whereTrue code : List Instruction}
    {l : Option Location} (h : linearize [control] [whereFalse, whereTrue] l = .ok code) :
    code = [openControl l control false] ++ whereFalse ++ [closeControl l control] ++
      ([openControl l control true] ++ whereTrue ++ [closeControl l control]) := by
  have hshape : checkShape [control].length [whereFalse, whereTrue].length = .ok () := rfl
  have htoggles : toggles [control] l 1 =
    [closeControl l control, openControl l control true] := rfl
  rw [linearize, hshape] at h
  rw [← Except.ok.inj h]
  simp [arms, htoggles, show toggles [control] l 0 = [] from rfl]

/-- The steps of the two blocks are between those of the control. -/
theorem Mux.unrollAll_pair {control : Qubits} {cs : List Qubit}
    {whereFalse whereTrue code : List Instruction} {l : Option Location} {xs ys : List Step}
    (hcontrol : control.resolveAt I ρ = some cs) (hFalse : unrollAll I ρ whereFalse = some xs)
    (hTrue : unrollAll I ρ whereTrue = some ys)
    (h : linearize [control] [whereFalse, whereTrue] l = .ok code) :
    unrollAll I ρ code = some ([.beginControl cs false] ++ xs ++ [.endControl cs] ++
      ([.beginControl cs true] ++ ys ++ [.endControl cs])) := by
  have hopen : ∀ c, unrollAll I ρ [openControl l control c] = some [.beginControl cs c] :=
    fun c => unrollAll_act (by simp [Action.unroll, hcontrol])
  have hclose : unrollAll I ρ [closeControl l control] = some [.endControl cs] :=
    unrollAll_act (by simp [Action.unroll, hcontrol])
  rw [linearize_pair h]
  exact unrollAll_append
    (unrollAll_append (unrollAll_append (hopen false) hFalse) hclose)
    (unrollAll_append (unrollAll_append (hopen true) hTrue) hclose)

end QuantumLowering
