/-
  The single qubits that descriptions stand for.

  * `Qubit`: one qubit of a named register or of an allocation.
  * `Quantity.value`: the value of a quantity, for any values of the unknowns and any meaning
    of the operators that stay symbolic.
  * `Qubits.resolve`: the qubits a description stands for, in order, if all its addresses have
    values and lie inside.
  * `Qubits.resolve_slice`: a slice stands for consecutive qubits.
  * `Qubits.Settled`: a description that stands for the same qubits whatever the values of all
    but some unknowns are.
-/
import QuantumLowering.Proofs.Constants
import QuantumLowering.Proofs.Numbers
import QuantumLowering.Proofs.Slices

namespace QuantumLowering

/-- Where qubits live: in a register of some name, or in one of the allocations. -/
inductive QubitRoot
  | register (name : String)
  | fresh (number : Nat)
deriving DecidableEq, Repr

/-- A single qubit. -/
structure Qubit where
  root : QubitRoot
  index : Nat
deriving DecidableEq, Repr

/-! ## Values -/

/-- A meaning of the operators and functions that polynomials keep symbolic. -/
structure Interpretation where
  operator : BinOp → Int64 → Int64 → Int64
  function : String → List Int64 → Int64

namespace Symbol

mutual
/-- The value of a symbol, with the values `ρ` of the unknowns. -/
def value (I : Interpretation) (ρ : String → Int64) : Symbol → Int64
  | .named x => ρ x
  | .binary op p q => I.operator op (polyValue I ρ p) (polyValue I ρ q)
  | .call f args => I.function f (argValues I ρ args)

/-- `value` on polynomials. -/
def polyValue (I : Interpretation) (ρ : String → Int64) : Polynomial Symbol → Int64
  | ⟨ts⟩ => termsValue I ρ ts

/-- `value` on lists of terms. -/
def termsValue (I : Interpretation) (ρ : String → Int64) : List (Monomial Symbol) → Int64
  | [] => 0
  | ⟨⟨m⟩, c⟩ :: ts => c * factorsValue I ρ m + termsValue I ρ ts

/-- `value` on lists of factors. -/
def factorsValue (I : Interpretation) (ρ : String → Int64) : List (Symbol × UInt32) → Int64
  | [] => 1
  | (s, e) :: m => value I ρ s ^ e.toNat * factorsValue I ρ m

/-- `value` on argument lists. -/
def argValues (I : Interpretation) (ρ : String → Int64) : List (Polynomial Symbol) → List Int64
  | [] => []
  | p :: ps => polyValue I ρ p :: argValues I ρ ps
end

variable {I : Interpretation} {ρ : String → Int64}

theorem factorsValue_eq {m : List (Symbol × UInt32)} :
    factorsValue I ρ m = PowerProduct.evalFactors (value I ρ) m := by
  induction m with
  | nil => simp [factorsValue, PowerProduct.evalFactors]
  | cons f m ih => obtain ⟨s, e⟩ := f; simp [factorsValue, PowerProduct.evalFactors, ih]

theorem termsValue_eq {ts : List (Monomial Symbol)} :
    termsValue I ρ ts = Polynomial.evalTerms (value I ρ) ts := by
  induction ts with
  | nil => simp [termsValue]
  | cons t ts ih =>
    obtain ⟨⟨m⟩, c⟩ := t
    simp [termsValue, Monomial.eval, PowerProduct.eval, factorsValue_eq, ih]

end Symbol

/-- The value of a quantity. -/
def Quantity.value (I : Interpretation) (ρ : String → Int64) (a : Quantity) : Int64 :=
  Symbol.polyValue I ρ a.poly

theorem Quantity.value_eq_eval {I : Interpretation} {ρ : String → Int64} {a : Quantity} :
    a.value I ρ = a.eval (Symbol.value I ρ) := by
  obtain ⟨⟨ts⟩, l⟩ := a
  exact Symbol.termsValue_eq

/-! ## Resolving descriptions -/

/-- The elements number `a`, `a + c`, and so on below `b`, if there are so many. -/
def pick {α : Type} (xs : List α) (a b c : Nat) : Option (List α) :=
  (List.range ((b - a + (c - 1)) / c)).mapM fun i => xs[a + i * c]?

/-- With step one, the elements from `a` up to `b`. -/
theorem pick_one {α : Type} {xs : List α} {a b : Nat} (hb : b ≤ xs.length) :
    pick xs a b 1 = some ((xs.drop a).take (b - a)) := by
  have key : ∀ n, a + n ≤ xs.length →
      (List.range n).mapM (fun i => xs[a + i * 1]?) = some ((xs.drop a).take n) := by
    intro n hn
    induction n with
    | zero => simp
    | succ n ih =>
      have hlt : a + n < xs.length := by omega
      rw [List.range_succ, List.mapM_append, ih (by omega)]
      simp [List.take_add_one, hlt]
  rw [pick, Nat.sub_self, Nat.add_zero, Nat.div_one]
  by_cases hab : a ≤ b
  · exact key (b - a) (by omega)
  · simp [Nat.sub_eq_zero_of_le (Nat.le_of_not_le hab)]

namespace Qubits

mutual
/-- The qubits that a description stands for, where `value` gives the values of quantities. -/
def resolve (value : Quantity → Option Int64) : Qubits → Option (List Qubit)
  | .register v =>
    ((value v.size).bind natural?).map fun n => (List.range n).map (⟨.register v.name, ·⟩)
  | .fresh number n _ =>
    ((value n).bind natural?).map fun n => (List.range n).map (⟨.fresh number, ·⟩)
  | .strided q start stop step =>
    (q.resolve value).bind fun qs => ((value start).bind natural?).bind fun a =>
      ((value stop).bind natural?).bind fun b => ((value step).bind natural?).bind fun c =>
        if c = 0 then none else pick qs a b c
  | .single q index =>
    (q.resolve value).bind fun qs => ((value index).bind natural?).bind fun i =>
      qs[i]?.map ([·])
  | .joined qs => resolveAll value qs

/-- The qubits of several descriptions one after another. -/
def resolveAll (value : Quantity → Option Int64) : List Qubits → Option (List Qubit)
  | [] => some []
  | q :: qs => (q.resolve value).bind fun xs => (resolveAll value qs).map (xs ++ ·)
end

mutual
/-- More values of quantities do not change what has been resolved. -/
theorem resolve_mono {value value' : Quantity → Option Int64}
    (h : ∀ a v, value a = some v → value' a = some v) :
    ∀ {q : Qubits} {xs : List Qubit}, q.resolve value = some xs → q.resolve value' = some xs
  | .register v, xs, hq => by
    simp only [resolve, Option.map_eq_some_iff, Option.bind_eq_some_iff] at hq ⊢
    obtain ⟨n, ⟨c, hc, hn⟩, rfl⟩ := hq
    exact ⟨n, ⟨c, h _ _ hc, hn⟩, rfl⟩
  | .fresh .., xs, hq => by
    simp only [resolve, Option.map_eq_some_iff, Option.bind_eq_some_iff] at hq ⊢
    obtain ⟨n, ⟨c, hc, hn⟩, rfl⟩ := hq
    exact ⟨n, ⟨c, h _ _ hc, hn⟩, rfl⟩
  | .strided q .., xs, hq => by
    simp only [resolve, Option.bind_eq_some_iff] at hq ⊢
    obtain ⟨ys, hys, a, ⟨_, ha, ha'⟩, b, ⟨_, hb, hb'⟩, c, ⟨_, hc, hc'⟩, hxs⟩ := hq
    exact ⟨ys, resolve_mono h hys, a, ⟨_, h _ _ ha, ha'⟩, b, ⟨_, h _ _ hb, hb'⟩, c,
      ⟨_, h _ _ hc, hc'⟩, hxs⟩
  | .single q _, xs, hq => by
    simp only [resolve, Option.bind_eq_some_iff] at hq ⊢
    obtain ⟨ys, hys, i, ⟨_, hi, hi'⟩, hxs⟩ := hq
    exact ⟨ys, resolve_mono h hys, i, ⟨_, h _ _ hi, hi'⟩, hxs⟩
  | .joined _, xs, hq => by
    rw [resolve] at hq ⊢
    exact resolveAll_mono h hq

theorem resolveAll_mono {value value' : Quantity → Option Int64}
    (h : ∀ a v, value a = some v → value' a = some v) :
    ∀ {qs : List Qubits} {xs : List Qubit},
      resolveAll value qs = some xs → resolveAll value' qs = some xs
  | [], _, hq => by simpa [resolveAll] using hq
  | q :: qs, xs, hq => by
    simp only [resolveAll, Option.bind_eq_some_iff, Option.map_eq_some_iff] at hq ⊢
    obtain ⟨ys, hys, zs, hzs, rfl⟩ := hq
    exact ⟨ys, resolve_mono h hys, zs, resolveAll_mono h hzs, rfl⟩
end

/-! ## Parts -/

/-- The values of quantities under an assignment to all symbols. -/
abbrev valuesAt (σ : Symbol → Int64) : Quantity → Option Int64 := fun a => some (a.eval σ)

section
variable {q part : Qubits} {start stop index : Quantity} {qs : List Qubit} {σ : Symbol → Int64}
variable {a b i : Nat}

/-- An element stands for the qubit at its index. -/
theorem resolve_element (hq : q.resolve (valuesAt σ) = some qs) (hlen : fits64 qs.length)
    (h : q.element index = .ok part) (hi : index.eval σ = Int64.ofNat i) (hlt : i < qs.length) :
    part.resolve (valuesAt σ) = some ((qs.drop i).take 1) := by
  obtain ⟨rfl, -⟩ := element_ok h
  simp [resolve, hq, hi, natural?_ofNat (fits64_of_le hlen (Nat.le_of_lt hlt)), hlt, List.take_one,
    List.head?_drop]

/-- A slice stands for consecutive qubits. -/
theorem resolve_slice (hq : q.resolve (valuesAt σ) = some qs) (hlen : fits64 qs.length)
    (h : q.slice start stop = .ok part) (ha : start.eval σ = Int64.ofNat a)
    (hb : stop.eval σ = Int64.ofNat b) (hab : a ≤ b) (hle : b ≤ qs.length) :
    part.resolve (valuesAt σ) = some ((qs.drop a).take (b - a)) := by
  obtain ⟨-, -, ⟨h1, h⟩ | ⟨-, -, rfl⟩⟩ := slice_ok h
  · have hone : b = a + 1 := by
      have hsub := Quantity.eval_of_constant? h1 (ρ := σ)
      rw [Quantity.eval_sub, ha, hb] at hsub
      have hne : a ≠ b := by
        rintro rfl
        rw [Int64.sub_self] at hsub
        exact absurd hsub (by decide)
      have hlt : a + 1 ≤ qs.length := by omega
      have hsum : Int64.ofNat b = Int64.ofNat (a + 1) := by rw [Int64.ofNat_add]; grind
      have hint := congrArg Int64.toInt hsum
      rw [toInt_ofNat (fits64_of_le hlen hle), toInt_ofNat (fits64_of_le hlen hlt)] at hint
      omega
    subst hone
    rw [Nat.add_sub_cancel_left]
    exact resolve_element hq hlen h ha (by omega)
  · have hone : natural? 1 = some 1 := rfl
    simp [resolve, hq, ha, hb, natural?_ofNat (fits64_of_le hlen hle),
      natural?_ofNat (fits64_of_le hlen (Nat.le_trans hab hle)), hone, pick_one hle]

end

/-! ## Settled descriptions -/

/-- The description stands for the qubits, whatever the values of the unknowns are that are not
    among `xs`. -/
def Settled (I : Interpretation) (ρ : String → Int64) (xs : List String) (q : Qubits)
    (qs : List Qubit) : Prop :=
  ∀ ρ', (∀ x ∈ xs, ρ' x = ρ x) → q.resolve (valuesAt (Symbol.value I ρ')) = some qs

variable {I : Interpretation} {ρ : String → Int64} {q : Qubits} {qs : List Qubit}
variable {xs : List String}

theorem Settled.resolve (h : Settled I ρ xs q qs) :
    q.resolve (valuesAt (Symbol.value I ρ)) = some qs := h ρ fun _ _ => rfl

/-- Without unknowns in its addresses, a description is settled. -/
theorem settled_of_constant (h : q.resolve Quantity.constant? = some qs) : Settled I ρ xs q qs :=
  fun _ _ => resolve_mono (fun _ _ ha => congrArg some (Quantity.eval_of_constant? ha)) h

end Qubits

end QuantumLowering
