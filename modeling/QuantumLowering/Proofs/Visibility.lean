/-
  Which qubits can be named where.

  * `Qubits.parts_induction`: induction over what has to be declared before.
  * `Scopes.isUsable`: registers, and what is declared in some open frame.
  * `Scopes.use_snd` and `Scopes.use_usable`: making qubits usable adds exactly their missing
    declarations to the innermost frame, after which they are usable.
-/
import QuantumLowering.Proofs.Positions
import QuantumLowering.Scopes

namespace QuantumLowering

namespace Qubits

/-! ## Parts are smaller -/

mutual
/-- The number of nodes of a description. -/
def nodes : Qubits → Nat
  | .register _ | .fresh .. => 1
  | .strided q .. | .single q _ => q.nodes + 1
  | .joined qs => nodesList qs + 1

/-- `nodes` added up. -/
def nodesList : List Qubits → Nat
  | [] => 0
  | q :: qs => q.nodes + nodesList qs
end

mutual
theorem nodes_unlocated : ∀ q : Qubits, q.unlocated.nodes = q.nodes
  | .register _ | .fresh .. => by simp [unlocated, nodes]
  | .strided q .. | .single q _ => by simp [unlocated, nodes, nodes_unlocated q]
  | .joined qs => by simp [unlocated, nodes, nodesList_unlocatedList qs]

theorem nodesList_unlocatedList : ∀ qs : List Qubits,
    nodesList (unlocatedList qs) = nodesList qs
  | [] => rfl
  | q :: qs => by simp [unlocatedList, nodesList, nodes_unlocated q, nodesList_unlocatedList qs]
end

theorem nodes_eq_of_beq {q r : Qubits} (h : q == r) : q.nodes = r.nodes := by
  rw [beq_eq, beq_iff_unlocated] at h
  rw [← nodes_unlocated q, h, nodes_unlocated]

theorem nodesList_parts_lt (q : Qubits) : nodesList q.parts < q.nodes := by
  cases q <;> simp [parts, nodes, nodesList]

theorem nodes_le_of_mem {r : Qubits} : ∀ {qs : List Qubits}, r ∈ qs → r.nodes ≤ nodesList qs
  | q :: qs, h => by
    rcases List.mem_cons.1 h with rfl | h
    · simp [nodesList]
    · have := nodes_le_of_mem h
      simp only [nodesList]; omega

/-- Induction over the parts of a description, whatever its kind. -/
theorem parts_induction {motive : Qubits → Prop}
    (step : ∀ q, (∀ r ∈ q.parts, motive r) → motive q) (q : Qubits) : motive q :=
  step q fun r hr =>
    have : r.nodes < q.nodes := Nat.lt_of_le_of_lt (nodes_le_of_mem hr) q.nodesList_parts_lt
    parts_induction step r
termination_by q.nodes

end Qubits

namespace Scopes

/-! ## Declared and usable qubits -/

/-- Whether qubits can be named: registers always, all others once they are declared. -/
def isUsable (s : Scopes) (q : Qubits) : Bool := !q.isDeclarable || s.isDeclared q

theorem isDeclared_iff {s : Scopes} {q : Qubits} :
    s.isDeclared q ↔ ∃ frame ∈ s.frames, ∃ r ∈ frame, q == r := by
  simp [isDeclared, List.contains_iff_exists_mem_beq]

theorem isDeclared_congr {s : Scopes} {q r : Qubits} (h : q == r) :
    s.isDeclared q = s.isDeclared r := by
  have key : ∀ t, (q == t) = (r == t) := fun t => BEq.congr_left h
  rw [Bool.eq_iff_iff, isDeclared_iff, isDeclared_iff]
  simp only [key]

@[simp] theorem isDeclared_initial (q : Qubits) : initial.isDeclared q = false := by
  simp [isDeclared, initial, frames]

@[simp] theorem isDeclared_enter (s : Scopes) (q : Qubits) :
    s.enter.isDeclared q = s.isDeclared q := by
  simp [isDeclared, enter, frames]

@[simp] theorem isUsable_enter (s : Scopes) (q : Qubits) : s.enter.isUsable q = s.isUsable q := by
  simp [isUsable]

@[simp] theorem isDeclared_declare (s : Scopes) (q r : Qubits) :
    (s.declare q).isDeclared r = (r == q || s.isDeclared r) := by
  simp [isDeclared, declare, frames, List.contains_cons, Bool.or_assoc]

/-- The stack with more qubits in its innermost frame. -/
def declareAll (s : Scopes) (qs : List Qubits) : Scopes := qs.foldl declare s

@[simp] theorem declareAll_nil (s : Scopes) : s.declareAll [] = s := rfl

@[simp] theorem declareAll_append (s : Scopes) (qs rs : List Qubits) :
    s.declareAll (qs ++ rs) = (s.declareAll qs).declareAll rs := List.foldl_append

@[simp] theorem declareAll_cons (s : Scopes) (q : Qubits) (qs : List Qubits) :
    s.declareAll (q :: qs) = (s.declare q).declareAll qs := rfl

theorem isDeclared_declareAll {s : Scopes} {r : Qubits} {qs : List Qubits} :
    (s.declareAll qs).isDeclared r ↔ (∃ q ∈ qs, r == q) ∨ s.isDeclared r := by
  induction qs generalizing s with
  | nil => simp
  | cons q qs ih => simp only [declareAll_cons, ih, isDeclared_declare]; grind

@[simp] theorem outer_declareAll {s : Scopes} {qs : List Qubits} :
    (s.declareAll qs).outer = s.outer := by
  induction qs generalizing s with
  | nil => rfl
  | cons q qs ih => exact ih (s := s.declare q)

theorem isUsable_declareAll {s : Scopes} {r : Qubits} {qs : List Qubits} (h : s.isUsable r) :
    (s.declareAll qs).isUsable r := by
  simp only [isUsable, Bool.or_eq_true, isDeclared_declareAll] at h ⊢
  grind

/-! ## Making qubits usable -/

theorem use_of_isUsable {s : Scopes} {q : Qubits} (h : s.isUsable q) : s.use q = ([], s) := by
  cases q <;> simp_all [use, isUsable, Qubits.isDeclarable]

/-- Undeclared qubits are declared behind the declarations of their parts, whatever their kind. -/
theorem use_of_not_isUsable {s : Scopes} {q : Qubits} (h : ¬ s.isUsable q) :
    s.use q = ((s.useAll q.parts).1 ++ [q], (s.useAll q.parts).2.declare q) := by
  cases q <;> simp_all [use, useAll, isUsable, Qubits.isDeclarable, Qubits.parts]

/-- Declarations one after another, each of undeclared qubits whose parts are usable. -/
inductive Declares : Scopes → List Qubits → Scopes → Prop
  | nil {s : Scopes} : Declares s [] s
  | snoc {s s' : Scopes} {qs : List Qubits} {q : Qubits} : Declares s qs s' → q.isDeclarable →
      ¬ s'.isDeclared q → (∀ r ∈ q.parts, s'.isUsable r) → Declares s (qs ++ [q]) (s'.declare q)

theorem Declares.append {s s' s'' : Scopes} {qs rs : List Qubits} (h : Declares s qs s')
    (k : Declares s' rs s'') : Declares s (qs ++ rs) s'' := by
  induction k with
  | nil => simpa using h
  | snoc _ hq hn hp ih => rw [← List.append_assoc]; exact .snoc ih hq hn hp

theorem Declares.eq_declareAll {s s' : Scopes} {qs : List Qubits} (h : Declares s qs s') :
    s' = s.declareAll qs := by
  induction h with
  | nil => rfl
  | snoc _ _ _ _ ih => simp [ih]

theorem Declares.isUsable {s s' : Scopes} {qs : List Qubits} {q : Qubits} (h : Declares s qs s')
    (hq : s.isUsable q) : s'.isUsable q := by
  rw [h.eq_declareAll]; exact isUsable_declareAll hq

/-- What is declared was not declared before. -/
theorem Declares.not_isDeclared {s s' : Scopes} {qs : List Qubits} {q : Qubits}
    (h : Declares s qs s') (hq : q ∈ qs) : ¬ s.isDeclared q := by
  induction h with
  | nil => simp at hq
  | snoc h _ hn _ ih =>
    rcases List.mem_append.1 hq with hq | hq
    · exact ih hq
    · rw [List.mem_singleton.1 hq]
      intro hd
      exact hn (h.eq_declareAll ▸ isDeclared_declareAll.2 (.inr hd))

/-- The declarations `needed` make all of `qs` usable, and none of them is larger. -/
structure Readies (s : Scopes) (qs needed : List Qubits) (s' : Scopes) : Prop where
  declares : Declares s needed s'
  usable : ∀ q ∈ qs, s'.isUsable q
  small : ∀ r ∈ needed, r.nodes ≤ Qubits.nodesList qs

theorem Readies.cons {s s' s'' : Scopes} {q : Qubits} {qs before rest : List Qubits}
    (h : Readies s [q] before s') (k : Readies s' qs rest s'') :
    Readies s (q :: qs) (before ++ rest) s'' where
  declares := h.declares.append k.declares
  usable r hr := by
    rcases List.mem_cons.1 hr with rfl | hr
    · exact k.declares.isUsable (h.usable r (by simp))
    · exact k.usable r hr
  small r hr := by
    rcases List.mem_append.1 hr with hr | hr
    · have := h.small r hr
      simp only [Qubits.nodesList] at this ⊢; omega
    · have := k.small r hr
      simp only [Qubits.nodesList]; omega

theorem readies_useAll_of_forall : ∀ {qs : List Qubits} (s : Scopes),
    (∀ q ∈ qs, ∀ s : Scopes, Readies s [q] (s.use q).1 (s.use q).2) →
      Readies s qs (s.useAll qs).1 (s.useAll qs).2
  | [], _, _ => ⟨.nil, by simp, by simp [useAll]⟩
  | q :: _, s, h =>
    (h q (by simp) s).cons (readies_useAll_of_forall _ fun r hr => h r (by simp [hr]))

/-- **What `use` does**: it declares what is missing, parts first, and then the qubits are
    usable. -/
theorem readies_use (s : Scopes) (q : Qubits) : Readies s [q] (s.use q).1 (s.use q).2 := by
  induction q using Qubits.parts_induction generalizing s with
  | step q ih =>
    by_cases h : s.isUsable q
    · rw [use_of_isUsable h]
      exact ⟨.nil, by simpa using h, by simp⟩
    · have hparts := readies_useAll_of_forall s ih
      rw [use_of_not_isUsable h]
      simp only [isUsable, Bool.or_eq_true, Bool.not_eq_true', not_or, Bool.not_eq_false] at h
      have hlt := q.nodesList_parts_lt
      refine ⟨.snoc hparts.declares h.1 ?_ hparts.usable, by simp [isUsable], ?_⟩
      · -- what the parts need is smaller than `q`, so `q` is still undeclared
        rw [hparts.declares.eq_declareAll, isDeclared_declareAll]
        rintro (⟨r, hr, he⟩ | hd)
        · have := hparts.small r hr
          have := Qubits.nodes_eq_of_beq he
          omega
        · exact h.2 hd
      · intro r hr
        rcases List.mem_append.1 hr with hr | hr
        · have := hparts.small r hr
          simp only [Qubits.nodesList]; omega
        · simp [List.mem_singleton.1 hr, Qubits.nodesList]

/-- `readies_use` on several descriptions. -/
theorem readies_useAll (s : Scopes) (qs : List Qubits) :
    Readies s qs (s.useAll qs).1 (s.useAll qs).2 :=
  readies_useAll_of_forall s fun q _ s => readies_use s q

end Scopes

end QuantumLowering
