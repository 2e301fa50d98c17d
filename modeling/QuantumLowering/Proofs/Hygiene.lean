/-
  The loops of tensor powers do not capture each other's indices.

  * `Lowering.IndexName`: the names that the loops of tensor powers have.
  * `Instruction.Under code xs i`: the instruction stands in the code inside of loops with the
    indices `xs`; `Instruction.Everywhere`: a property of all instructions with their loops.
  * `Instruction.Hygienic xs i`: the indices `xs` are different; each one that the qubits of the
    instruction mention is bound once; sizes, loop bounds and arguments mention none.
  * `Lowering.Enclosing xs op`: the loops around an operation, whose indices have names that none
    of the loops inside of it takes.
  * `Lowering.Addressed xs q`: a target of which only the addresses mention indices.
  * `hygienic_lowerCall`: lowered code of an operation call is hygienic everywhere, if tensor powers
    with different texts have indices of different names.

  A part of a target starts at a multiple of an index and ends at a multiple of it, but its size
  does not mention the index, since the multiples cancel.
-/
import Mathlib.Data.List.Nodup
import QuantumLowering.Proofs.Cancellation
import QuantumLowering.Proofs.Constants
import QuantumLowering.Proofs.IndexNames
import QuantumLowering.Proofs.Inversion
import QuantumLowering.Proofs.ScopeRuns
import QuantumLowering.Proofs.Slices
import QuantumLowering.Proofs.Unrolling
import QuantumLowering.TextHash

namespace QuantumLowering

/-! ## Parts of parts -/

namespace Qubits.Reaches

variable {q r t : Qubits}

theorem trans (h : q.Reaches r) (h' : r.Reaches t) : q.Reaches t := by
  induction h with
  | refl => exact h'
  | part hp _ ih => exact .part hp (ih h')

theorem mentions {x : String} (h : q.Reaches r) (hr : r.mentions x) : q.mentions x := by
  induction h with
  | refl => exact hr
  | part hp _ ih => exact mentions_of_part hp (ih hr)

end Qubits.Reaches

/-! ## Loops around an instruction -/

namespace Instruction

/-- The index that an instruction binds in its bodies. -/
def indices : Instruction → List ClassicalVariable
  | loop x _ _ _ => [x]
  | _ => []

/-- The instruction stands in the code, inside of loops with these indices, from the outside
    in. -/
inductive Under : List Instruction → List ClassicalVariable → Instruction → Prop
  | here {code i} : i ∈ code → Under code [] i
  | body {code j b xs i} : j ∈ code → b ∈ j.bodies → Under b xs i → Under code (j.indices ++ xs) i

/-- In code that stands inside of loops with the indices `xs`, each instruction has the property
    together with the indices of all loops around it. -/
def Everywhere (P : List ClassicalVariable → Instruction → Prop) (xs : List ClassicalVariable)
    (code : List Instruction) : Prop :=
  ∀ path i, Under code path i → P (xs ++ path) i

namespace Everywhere

variable {P : List ClassicalVariable → Instruction → Prop} {xs : List ClassicalVariable}
variable {a b code : List Instruction} {i : Instruction} {action : Action} {l m : Option Location}

theorem nil : Everywhere P xs [] := by
  rintro _ _ (⟨⟨⟩⟩ | ⟨⟨⟩⟩)

theorem append (ha : Everywhere P xs a) (hb : Everywhere P xs b) : Everywhere P xs (a ++ b) := by
  intro path i h
  cases h with
  | here hi => exact (List.mem_append.1 hi).elim (fun h => ha _ _ (.here h)) fun h => hb _ _ (.here h)
  | body hj hbody h =>
    exact (List.mem_append.1 hj).elim (fun hj => ha _ _ (.body hj hbody h))
      fun hj => hb _ _ (.body hj hbody h)

theorem single (hi : P xs i) (hbodies : ∀ b ∈ i.bodies, Everywhere P (xs ++ i.indices) b) :
    Everywhere P xs [i] := by
  intro path j h
  cases h with
  | here hj =>
    rw [List.mem_singleton.1 hj, List.append_nil]
    exact hi
  | body hj hbody h =>
    obtain rfl := List.mem_singleton.1 hj
    rw [← List.append_assoc]
    exact hbodies _ hbody _ _ h

theorem act (h : P xs (.act action l)) : Everywhere P xs [.act action l] :=
  single h (by simp [bodies])

theorem declarations {qs : List Qubits} (h : ∀ q ∈ qs, P xs (.act (.declare q) none)) :
    Everywhere P xs (QuantumLowering.declarations qs) := by
  induction qs with
  | nil => exact nil
  | cons q qs ih =>
    obtain ⟨hq, hqs⟩ := List.forall_mem_cons.1 h
    exact (act hq).append (ih hqs)

theorem region (hcode : Everywhere P xs code) (hbegin : P xs (.act .beginDagger l))
    (hend : P xs (.act .endDagger m)) :
    Everywhere P xs ([.act .beginDagger l] ++ code ++ [.act .endDagger m]) :=
  ((act hbegin).append hcode).append (act hend)

/-- Two blocks under one control. -/
theorem pair {control : Qubits} (hopen : ∀ c, P xs (Mux.openControl l control c))
    (hclose : P xs (Mux.closeControl l control)) (ha : Everywhere P xs a) (hb : Everywhere P xs b)
    (h : Mux.linearize [control] [a, b] l = .ok code) : Everywhere P xs code := by
  rw [Mux.linearize_pair h]
  exact (((act (hopen false)).append ha).append (act hclose)).append
    (((act (hopen true)).append hb).append (act hclose))

end Everywhere

end Instruction

open Instruction

namespace Lowering

/-- The names that start like the index of the loop of a tensor power. -/
def IndexName (x : String) : Prop := ∃ rest, x = "ext_iter_" ++ rest

theorem indexName_powerIndex [Fingerprint] (op : Operation) : IndexName (powerIndex op).name :=
  ⟨_, rfl⟩

/-- No such name is among those that occur. -/
def NoIndex (occurs : String → Bool) : Prop := ∀ x, IndexName x → ¬ occurs x

end Lowering

open Lowering

/-- The indices of the loops around an instruction and its own are different, each one that its
    qubits mention is bound by one of the loops only, and its sizes, bounds and arguments mention
    none. -/
structure Instruction.Hygienic (xs : List ClassicalVariable) (i : Instruction) : Prop where
  generated : ∀ x ∈ xs ++ i.indices, IndexName x.name
  distinct : ((xs ++ i.indices).map (·.name)).Nodup
  /-- One of the loops binds the index, and only one. -/
  boundOnce : ∀ q ∈ i.qubits, ∀ x, IndexName x → q.mentions x → (xs.map (·.name)).count x = 1
  sizes : ∀ q ∈ i.qubits, ∀ r, q.Reaches r → NoIndex r.size.mentions
  bounds : ∀ x range body l, i = .loop x range body l → NoIndex (range.mentions ·)
  arguments : ∀ d args q l, i = .act (.apply (.call d args) q) l →
    ∀ a ∈ args, NoIndex (a.mentions ·)

namespace Lowering

/-! ## Names that do not occur -/

namespace NoIndex

variable {a b v : Quantity}

theorem const {c : Int64} : NoIndex (Quantity.const c).mentions := fun _ _ => by simp

theorem of_or {occurs : String → Bool} (ha : NoIndex a.mentions) (hb : NoIndex b.mentions)
    (himp : ∀ {x}, occurs x → a.mentions x ∨ b.mentions x) : NoIndex occurs :=
  fun x hx h => (himp h).elim (ha x hx) (hb x hx)

theorem add (ha : NoIndex a.mentions) (hb : NoIndex b.mentions) : NoIndex (a + b).mentions :=
  of_or ha hb Quantity.mentions_add

theorem sub (ha : NoIndex a.mentions) (hb : NoIndex b.mentions) : NoIndex (a - b).mentions :=
  of_or ha hb Quantity.mentions_sub

theorem div (ha : NoIndex a.mentions) (hb : NoIndex b.mentions) : NoIndex (a / b).mentions :=
  of_or ha hb Quantity.mentions_div

/-- The elements of a product or of a combination. -/
theorem elements {ops : List Operation} (h : NoIndex (Operation.mentionsAny · ops)) :
    ∀ op ∈ ops, NoIndex (op.mentions ·) :=
  fun op hop x hx hm => h x hx (Operation.mentionsAny_iff.2 ⟨op, hop, hm⟩)

theorem size {op : Operation} (h : NoIndex (op.mentions ·)) : NoIndex op.size.mentions :=
  fun x hx hsize => h x hx (Operation.mentions_size hsize)

theorem knownSize : ∀ {ops : List Operation}, (∀ op ∈ ops, NoIndex (op.mentions ·)) →
    NoIndex (Lowering.knownSize ops).mentions
  | [], _ => const
  | op :: ops, h => by
    obtain ⟨hop, hops⟩ := List.forall_mem_cons.1 h
    rw [Lowering.knownSize]
    split
    · exact (size hop).add (knownSize hops)
    · exact knownSize hops

end NoIndex

/-! ## Targets -/

variable {xs ys : List ClassicalVariable} {q r part target : Qubits} {start stop : Quantity}

/-- The qubits mention only indices of the loops around them, and none in a size. -/
structure Addressed (xs : List ClassicalVariable) (q : Qubits) : Prop where
  bound : ∀ x, IndexName x → q.mentions x → x ∈ xs.map (·.name)
  sizes : ∀ r, q.Reaches r → NoIndex r.size.mentions

namespace Addressed

/-- Qubits that mention no index. -/
theorem of_noIndex (h : NoIndex (q.mentions ·)) : Addressed xs q where
  bound x hx hq := absurd hq (h x hx)
  sizes _ hr x hx hsize := h x hx (hr.mentions (Qubits.mentions_size hsize))

theorem of_reaches (h : Addressed xs q) (hr : q.Reaches r) : Addressed xs r where
  bound x hx hmentions := h.bound x hx (hr.mentions hmentions)
  sizes t ht := h.sizes t (hr.trans ht)

/-- A part of a target, in further loops. -/
theorem of_parts (h : Addressed xs target) (hsub : xs ⊆ ys) (hparts : part.parts = [target])
    (hbound : ∀ x, IndexName x → part.mentions x → target.mentions x ∨ x ∈ ys.map (·.name))
    (hsize : NoIndex part.size.mentions) : Addressed ys part where
  bound x hx hpart := (hbound x hx hpart).elim
    (fun htarget => List.map_subset _ hsub (h.bound x hx htarget)) id
  sizes r hr := by
    cases hr with
    | refl => exact hsize
    | part hp hr =>
      rw [hparts, List.mem_singleton] at hp
      exact h.sizes r (hp ▸ hr)

theorem element {index : Quantity} (h : Addressed xs target) (hsub : xs ⊆ ys)
    (hindex : ∀ x, IndexName x → index.mentions x → x ∈ ys.map (·.name))
    (hpart : target.element index = .ok part) : Addressed ys part := by
  obtain ⟨rfl, -⟩ := Qubits.element_ok hpart
  refine h.of_parts hsub rfl (fun x hx hpart => ?_) (by rw [Qubits.size]; exact .const)
  rw [Qubits.mentions, Bool.or_eq_true] at hpart
  exact hpart.imp_right (hindex x hx)

/-- A slice, if its span mentions no index. -/
theorem slice (h : Addressed xs target) (hsub : xs ⊆ ys)
    (hstart : ∀ x, IndexName x → start.mentions x → x ∈ ys.map (·.name))
    (hstop : ∀ x, IndexName x → stop.mentions x → x ∈ ys.map (·.name))
    (hspan : NoIndex (stop - start).mentions) (hpart : target.slice start stop = .ok part) :
    Addressed ys part := by
  obtain ⟨-, -, ⟨-, hpart⟩ | ⟨-, -, rfl⟩⟩ := Qubits.slice_ok hpart
  · exact h.element hsub hstart hpart
  · refine h.of_parts hsub rfl (fun x hx hpart => ?_) (by rw [Qubits.size]; exact hspan.div .const)
    simp only [Qubits.mentions, Bool.or_eq_true, Quantity.not_mentions_const, Bool.false_eq_true,
      or_false] at hpart
    rcases hpart with (hpart | hpart) | hpart
    · exact .inl hpart
    · exact .inr (hstart x hx hpart)
    · exact .inr (hstop x hx hpart)

/-- Between bounds without indices. -/
theorem slice_noIndex (h : Addressed xs target) (hstart : NoIndex start.mentions)
    (hstop : NoIndex stop.mentions) (hpart : target.slice start stop = .ok part) :
    Addressed xs part :=
  h.slice (List.Subset.refl xs) (fun x hx hm => absurd hm (hstart x hx))
    (fun x hx hm => absurd hm (hstop x hx)) (hstop.sub hstart) hpart

/-- The part of one copy, in the loop that counts the copies. -/
theorem copyPart {partSize : Quantity} {x : ClassicalVariable} (h : Addressed xs target)
    (hx : IndexName x.name) (hsize : NoIndex partSize.mentions)
    (hpart : Lowering.copyPart target partSize x.quantity = .ok part) :
    Addressed (xs ++ [x]) part := by
  have hsub : xs ⊆ xs ++ [x] := List.subset_append_left xs [x]
  have hindex : ∀ y, IndexName y → x.quantity.mentions y → y ∈ (xs ++ [x]).map (·.name) := by
    intro y _ hy
    obtain rfl := Quantity.mentions_named.1 hy
    simp
  have hstart : ∀ y, IndexName y → (partSize * x.quantity).mentions y →
      y ∈ (xs ++ [x]).map (·.name) := fun y hy hm =>
    (Quantity.mentions_mul hm).elim (fun hm => absurd hm (hsize y hy)) (hindex y hy)
  rcases copyPart_ok hpart with ⟨-, hpart⟩ | ⟨-, hpart⟩
  · exact h.element hsub hindex hpart
  · refine h.slice hsub hstart (fun y hy hm => ?_) (fun y hy hm => ?_) hpart
    · exact (Quantity.mentions_add hm).elim (hstart y hy) fun hm => absurd hm (hsize y hy)
    · exact hsize y hy (Quantity.mentions_copySpan (hsize x.name hx) hm)

end Addressed

/-! ## Code inside of loops -/

/-- The loops around an operation have different indices, and no loop inside of it takes one of
    their names. -/
structure Enclosing [Fingerprint] (xs : List ClassicalVariable) (op : Operation) : Prop where
  generated : ∀ x ∈ xs, IndexName x.name
  distinct : (xs.map (·.name)).Nodup
  apart : op.Apart (xs.map (·.name))

/-- Code inside of the loops with the indices `xs` is hygienic everywhere. -/
def HygienicIn (xs : List ClassicalVariable) (code : List Instruction) : Prop :=
  ∀ path i, Under code path i → Hygienic (xs ++ path) i

namespace Enclosing

variable {op op' base : Operation} {copies : Quantity} {own l : Option Location} [Fingerprint]

theorem nil (h : op.Separated) : Enclosing [] op := ⟨by simp, by simp, .nil h⟩

/-- The same loops are around a part of the operation. -/
theorem inside (h : Enclosing xs op) (hop' : op'.Apart (xs.map (·.name))) : Enclosing xs op' :=
  ⟨h.generated, h.distinct, hop'⟩

/-- The loop of a tensor power is one more loop around its base. -/
theorem power (h : Enclosing xs (.power base copies own)) :
    Enclosing (xs ++ [powerIndex (.power base copies own)]) base where
  generated := List.forall_mem_append.2
    ⟨h.generated, List.forall_mem_singleton.2 (indexName_powerIndex _)⟩
  distinct := by
    rw [List.map_append, List.map_singleton, ← List.concat_eq_append]
    exact h.distinct.concat h.apart.not_mem
  apart := by
    rw [List.map_append]
    exact h.apart.power

/-- Instructions without a body on such targets. -/
theorem act {a : Action} (h : Enclosing xs op) (ha : ∀ q ∈ a.qubits, Addressed xs q)
    (hargs : ∀ d args q, a = .apply (.call d args) q → ∀ v ∈ args, NoIndex (v.mentions ·)) :
    Hygienic xs (.act a l) where
  generated := by simpa [indices] using h.generated
  distinct := by simpa [indices] using h.distinct
  boundOnce q hq x hx hmentions :=
    List.count_eq_one_of_mem h.distinct ((ha q hq).bound x hx hmentions)
  sizes q hq := (ha q hq).sizes
  bounds _ _ _ _ heq := by simp at heq
  arguments d args q _ heq := hargs d args q (by simp_all)

theorem loop {body : List Instruction} (h : Enclosing xs (.power base copies own))
    (hcopies : NoIndex copies.mentions) : Hygienic xs
      (.loop (powerIndex (.power base copies own)) (.upTo (.const 0) copies) body l) where
  generated := h.power.generated
  distinct := h.power.distinct
  boundOnce _ hq := absurd hq List.not_mem_nil
  sizes _ hq := absurd hq List.not_mem_nil
  bounds _ _ _ _ heq := by
    obtain ⟨-, rfl, -⟩ := Instruction.loop.inj heq
    simpa [NoIndex, LoopRange.mentions, LoopRange.upTo] using hcopies
  arguments _ _ _ _ heq := by simp at heq

end Enclosing

namespace HygienicIn

variable {a b code : List Instruction} {i : Instruction}

theorem nil : HygienicIn xs [] := Everywhere.nil

theorem append (ha : HygienicIn xs a) (hb : HygienicIn xs b) : HygienicIn xs (a ++ b) :=
  Everywhere.append ha hb

theorem single (hi : Hygienic xs i) (hbodies : ∀ b ∈ i.bodies, HygienicIn (xs ++ i.indices) b) :
    HygienicIn xs [i] := Everywhere.single hi hbodies

variable [Fingerprint]

/-- An instruction without a body, on a target or on none. -/
theorem act {op : Operation} {action : Action} {l : Option Location} (h : Enclosing xs op)
    (ha : ∀ q ∈ action.qubits, Addressed xs q)
    (hargs : ∀ d args q, action = .apply (.call d args) q → ∀ v ∈ args, NoIndex (v.mentions ·)) :
    HygienicIn xs [.act action l] := Everywhere.act (h.act ha hargs)

/-- Declarations of what a target is built from. -/
theorem declarations {op : Operation} {s : Scopes} (h : Enclosing xs op) (hq : Addressed xs q) :
    HygienicIn xs (QuantumLowering.declarations (s.use q).1) :=
  Everywhere.declarations fun _ hd =>
    h.act (List.forall_mem_singleton.2 (hq.of_reaches (Scopes.reaches_of_mem_use hd))) (by simp)

theorem region {op : Operation} {l m : Option Location} (hcode : HygienicIn xs code)
    (h : Enclosing xs op) :
    HygienicIn xs ([.act .beginDagger l] ++ code ++ [.act .endDagger m]) :=
  Everywhere.region hcode (h.act (by simp [Action.qubits]) (by simp))
    (h.act (by simp [Action.qubits]) (by simp))

/-- Two blocks under one control. -/
theorem choice {op : Operation} {control : Qubits} {l : Option Location} (h : Enclosing xs op)
    (hcontrol : Addressed xs control) (ha : HygienicIn xs a) (hb : HygienicIn xs b)
    (hm : Mux.linearize [control] [a, b] l = .ok code) : HygienicIn xs code :=
  Everywhere.pair (fun _ => h.act (List.forall_mem_singleton.2 hcontrol) (by simp))
    (h.act (List.forall_mem_singleton.2 hcontrol) (by simp)) ha hb hm

end HygienicIn

/-! ## Lowering -/

theorem noIndex_copySize {base : Operation} {copies partSize : Quantity} {own l : Option Location}
    (hbase : NoIndex (base.mentions ·)) (hcopies : NoIndex copies.mentions)
    (ht : Addressed xs target) (h : copySize base copies own target l = .ok partSize) :
    NoIndex partSize.mentions := by
  have hsize : NoIndex target.size.mentions := ht.sizes target (.refl target)
  unfold copySize at h
  split at h
  · obtain rfl := Except.ok.inj h
    exact hbase.size
  · unfold equalPart at h
    dsimp only at h
    split at h
    · rename_i part hpart
      obtain rfl := Except.ok.inj h
      exact fun x hx hm => hsize x hx (Quantity.mentions_divExact? hpart hm)
    · split at h
      · simp at h
      · obtain rfl := Except.ok.inj h
        exact hsize.div hcopies

theorem noIndex_resolveArgs {d : Definition} {args resolved : List ClassicalValue}
    {l : Option Location} (hargs : ∀ v ∈ args, NoIndex (v.mentions ·)) (ht : Addressed xs target)
    (h : resolveArgs d args target l = .ok resolved) : ∀ v ∈ resolved, NoIndex (v.mentions ·) := by
  unfold resolveArgs at h
  split at h
  · obtain rfl := Except.ok.inj h
    exact hargs
  · split at h
    · rename_i value hvalue
      obtain rfl := Except.ok.inj h
      refine List.forall_mem_cons.2 ⟨fun x hx hm => ?_, hargs⟩
      exact ht.sizes target (.refl target) x hx (Quantity.mentions_solve? hvalue hm)
    · simp at h

theorem noIndex_splitSizes {op : Operation} {ops : List Operation} {sizes : List Quantity}
    {l : Option Location} (hops : ∀ op ∈ ops, NoIndex (op.mentions ·)) (ht : Addressed xs target)
    (h : splitSizes op ops target l = .ok sizes) : ∀ size ∈ sizes, NoIndex size.mentions := by
  obtain ⟨rfl, -⟩ := splitSizes_eq_ok h
  intro size hsize
  obtain ⟨op, hop, rfl⟩ := List.mem_map.1 hsize
  split
  · exact (hops op hop).size
  · exact (ht.sizes target (.refl target)).sub (.knownSize hops)

variable [Fingerprint]

mutual
theorem lowerCall_hygienic : ∀ {op : Operation} {xs : List ClassicalVariable} {target : Qubits}
    {site : Option Location} {s s' : Scopes} {code : List Instruction},
    NoIndex (op.mentions ·) → Enclosing xs op → Addressed xs target →
    Yields (lowerCall target site op) s code s' → HygienicIn xs code
  | .elementary (.gate _) _, _, _, _, _, _, _, _, hxs, ht, h => by
    rcases lowerCall_gate h with ⟨-, rfl, -⟩ | ⟨-, -, rfl⟩
    · exact .nil
    · exact (HygienicIn.declarations hxs ht).append
        (.act hxs (List.forall_mem_singleton.2 ht) (by simp))
  | .elementary (.call d args) _, _, _, _, _, _, _, hop, hxs, ht, h => by
    obtain ⟨resolved, hresolved, -, rfl⟩ := lowerCall_call h
    have hargs : ∀ v ∈ args, NoIndex (v.mentions ·) := fun v hv x hx hm =>
      hop x hx (by simpa [Operation.mentions, Elementary.mentions] using .inr ⟨v, hv, hm⟩)
    have hresolved := noIndex_resolveArgs hargs ht hresolved
    refine (HygienicIn.declarations hxs ht).append
      (.act hxs (List.forall_mem_singleton.2 ht) fun _ _ _ heq => ?_)
    obtain ⟨⟨-, rfl⟩, -⟩ : (_ ∧ _) ∧ _ := by simpa using heq
    exact hresolved
  | .sequence .., _, _, _, _, _, _, hop, hxs, ht, h =>
    lowerSequence_hygienic (NoIndex.elements (by simpa [NoIndex, Operation.mentions] using hop))
      (fun op hmem => hxs.inside (hxs.apart.sequence op hmem)) ht (lowerCall_sequence h)
  | .combination .., _, _, _, _, _, _, hop, hxs, ht, h => by
    obtain ⟨_, hsizes, h⟩ := lowerCall_combination h
    have hops := NoIndex.elements (by simpa [NoIndex, Operation.mentions] using hop)
    exact lowerParts_hygienic hops
      (fun op hmem => hxs.inside (hxs.apart.combination op hmem)) ht .const
      (noIndex_splitSizes hops ht hsizes) h
  | .power .., _, _, _, _, _, _, hop, hxs, ht, h => by
    obtain ⟨_, part, body, _, hsize, hpart, hbody, -, rfl⟩ := lowerCall_power h
    simp only [NoIndex, Operation.mentions, Bool.or_eq_true, not_or] at hop
    have hsize := noIndex_copySize (fun x hx => (hop x hx).1) (fun x hx => (hop x hx).2) ht hsize
    have hbody := lowerCall_hygienic (fun x hx => (hop x hx).1) hxs.power
      (ht.copyPart (indexName_powerIndex _) hsize hpart) hbody
    exact (HygienicIn.declarations hxs ht).append
      (.single (hxs.loop fun x hx => (hop x hx).2) (List.forall_mem_singleton.2 hbody))
  | .adjoint .., _, _, _, _, _, _, hop, hxs, ht, h => by
    obtain ⟨_, _, hbody, -, rfl⟩ := lowerCall_adjoint h
    have hbody := lowerCall_hygienic (by simpa [NoIndex, Operation.mentions] using hop)
      (hxs.inside hxs.apart.adjoint) ht hbody
    exact (HygienicIn.declarations hxs ht).append (hbody.region hxs)
  | .scaled .., _, _, _, _, _, _, hop, hxs, ht, h => by
    simp only [NoIndex, Operation.mentions, Bool.or_eq_true, not_or] at hop
    exact lowerCall_hygienic (fun x hx => (hop x hx).2) (hxs.inside hxs.apart.scaled)
      ht (lowerCall_scaled h)
  | .choice control .., xs, _, _, _, _, _, hop, hxs, ht, h => by
    obtain ⟨whereFalse, whereTrue, _, _, hFalse, hTrue, hm, rfl⟩ := lowerCall_choice h
    simp only [NoIndex, Operation.mentions, Bool.or_eq_true, not_or] at hop
    have hcontrol : Addressed xs control := .of_noIndex fun x hx => (hop x hx).1.1
    have hFalse := lowerCall_hygienic (fun x hx => (hop x hx).2)
      (hxs.inside hxs.apart.choice.2) ht hFalse
    have hTrue := lowerCall_hygienic (fun x hx => (hop x hx).1.2)
      (hxs.inside hxs.apart.choice.1) ht hTrue
    exact (HygienicIn.declarations hxs hcontrol).append ((HygienicIn.declarations hxs ht).append
      (.choice hxs hcontrol hFalse hTrue hm))

theorem lowerSequence_hygienic : ∀ {ops : List Operation} {xs : List ClassicalVariable}
    {target : Qubits} {site : Option Location} {s s' : Scopes} {code : List Instruction},
    (∀ op ∈ ops, NoIndex (op.mentions ·)) → (∀ op ∈ ops, Enclosing xs op) →
    Addressed xs target → Yields (lowerSequence target site ops) s code s' → HygienicIn xs code
  | [], _, _, _, _, _, _, _, _, _, h => by obtain ⟨rfl, -⟩ := lowerSequence_nil h; exact .nil
  | _ :: _, _, _, _, _, _, _, hop, hxs, ht, h => by
    obtain ⟨-, _, _, _, hfirst, hrest, rfl⟩ := lowerSequence_cons h
    obtain ⟨hop, hops⟩ := List.forall_mem_cons.1 hop
    obtain ⟨hx, hxs⟩ := List.forall_mem_cons.1 hxs
    exact (lowerCall_hygienic hop hx ht hfirst).append (lowerSequence_hygienic hops hxs ht hrest)

theorem lowerParts_hygienic : ∀ {ops : List Operation} {xs : List ClassicalVariable}
    {target : Qubits} {site : Option Location} {start : Quantity} {sizes : List Quantity}
    {s s' : Scopes} {code : List Instruction},
    (∀ op ∈ ops, NoIndex (op.mentions ·)) → (∀ op ∈ ops, Enclosing xs op) →
    Addressed xs target → NoIndex start.mentions → (∀ size ∈ sizes, NoIndex size.mentions) →
    Yields (lowerParts target site start sizes ops) s code s' → HygienicIn xs code
  | [], _, _, _, _, _, _, _, _, _, _, _, _, _, h => by
    obtain ⟨rfl, -⟩ := lowerParts_nil h; exact .nil
  | _ :: _, _, _, _, _, _, _, _, _, hop, hxs, ht, hstart, hsizes, h => by
    rcases lowerParts_cons h with
      ⟨-, rfl, -⟩ | ⟨_, _, _, _, _, _, rfl, hpart, hfirst, hrest, rfl⟩
    · exact .nil
    · obtain ⟨hop, hops⟩ := List.forall_mem_cons.1 hop
      obtain ⟨hx, hxs⟩ := List.forall_mem_cons.1 hxs
      obtain ⟨hsize, hsizes⟩ := List.forall_mem_cons.1 hsizes
      have hstop := hstart.add hsize
      exact (lowerCall_hygienic hop hx (ht.slice_noIndex hstart hstop hpart) hfirst).append
        (lowerParts_hygienic hops hxs ht hstop hsizes hrest)
end

/-- **The loops of tensor powers do not capture each other's indices.**  Where operation and
    target mention no such index, and two powers in the operation have the same index only if their
    texts are equal, the lowered code is hygienic at each of its instructions. -/
theorem hygienic_lowerCall {op : Operation} {target : Qubits} {site : Option Location} {s : Scopes}
    {code : List Instruction} (hop : NoIndex (op.mentions ·))
    (htarget : NoIndex (target.mentions ·)) (hseparated : op.Separated)
    (h : (lowerCall target site op s).1 = .ok code) : ∀ xs i, Under code xs i → Hygienic xs i :=
  fun xs i hi => lowerCall_hygienic hop (.nil hseparated) (.of_noIndex htarget) ⟨h, rfl⟩ xs i hi

end Lowering

/-! ## Pairs of qubits -/

namespace Lowering

/-- A Hadamard gate on both qubits of `n` pairs. -/
def pairs : Operation := .power (.power (.ofGate .h) (.const 2) none) (.named "n") none

/-- The index of the loop over the pairs. -/
def pairIndex : ClassicalVariable := powerIndex pairs

/-- The index of the loop over the qubits of a pair. -/
def qubitIndex : ClassicalVariable := powerIndex (.power (.ofGate .h) (.const 2) none)

def pairSize : Quantity := .const 2 * .const 1

/-- A register of unknown size. -/
def manyQubits : Qubits := .register ⟨"q", .named "m", .owner⟩

/-- The pair at the index of the loop over the pairs. -/
def pair : Qubits :=
  .strided manyQubits (pairSize * pairIndex.quantity) (pairSize * pairIndex.quantity + pairSize)
    (.const 1)

/-- One loop inside of the other. -/
def pairsCode : List Instruction :=
  [.loop pairIndex (.upTo (.const 0) (.named "n"))
    [.act (.declare pair) none,
      .loop qubitIndex (.upTo (.const 0) (.const 2))
        [.act (.declare (.single pair qubitIndex.quantity)) none,
          .act (.apply (.gate .h) (.single pair qubitIndex.quantity)) none] none] none]

theorem copyPart_pair : copyPart manyQubits pairSize pairIndex.quantity = .ok pair := by
  have hspan : (pairSize * pairIndex.quantity + pairSize - pairSize * pairIndex.quantity).constant? =
      some 2 := Quantity.constant?_copySpan (show pairSize.constant? = some 2 from rfl)
  have hsize : pairSize.isConst 1 = false := rfl
  have hstart : (pairSize * pairIndex.quantity).constant? = none := rfl
  have hstop : (pairSize * pairIndex.quantity + pairSize).constant? = none := rfl
  simp only [copyPart, hsize, Bool.false_eq_true, if_false, Qubits.slice, Qubits.sliceWith, hspan,
    hstart, Qubits.pastEnd?, hstop]
  rfl

theorem use_pair :
    Scopes.initial.enter.use pair = ([pair], Scopes.initial.enter.declare pair) := by
  simp [pair, manyQubits, Scopes.use]

theorem use_qubit :
    ((Scopes.initial.enter.declare pair).enter.use (.single pair qubitIndex.quantity)).1 =
      [.single pair qubitIndex.quantity] := by
  simp [pair, Scopes.use, Qubits.beq_eq, Qubits.beq]

theorem lowerCall_pairs : (lowerCall manyQubits none pairs Scopes.initial).1 = .ok pairsCode := by
  have hgate : ∀ q s, (lowerCall q none (.ofGate .h) s).1 =
      .ok (declarations (s.use q).1 ++ [.act (.apply (.gate .h) q) none]) := fun _ _ => rfl
  have hqubit := hgate (.single pair qubitIndex.quantity) (Scopes.initial.enter.use pair).2.enter
  have hpair : Yields (lowerCall pair none (.power (.ofGate .h) (.const 2) none))
      Scopes.initial.enter _ _ := yields_lowerCall_power rfl rfl ⟨hqubit, rfl⟩
  rw [use_pair, use_qubit] at hpair
  have hpairs : Yields (lowerCall manyQubits none pairs) Scopes.initial _ _ :=
    yields_lowerCall_power rfl copyPart_pair hpair
  exact hpairs.1

theorem noIndex_named {y : String} (h : y.toList.head? ≠ some 'e') :
    NoIndex (Quantity.named y).mentions := by
  rintro _ ⟨rest, rfl⟩ hm
  rw [Quantity.mentions_named] at hm
  subst hm
  simp at h

theorem noIndex_pairs : NoIndex (pairs.mentions ·) := by
  intro x hx
  have hn := noIndex_named (y := "n") (by decide) x hx
  simpa [pairs, Operation.mentions, Operation.ofGate, Elementary.mentions, Gate.parameters] using hn

theorem noIndex_manyQubits : NoIndex (manyQubits.mentions ·) := by
  intro x hx
  have hm := noIndex_named (y := "m") (by decide) x hx
  simpa [manyQubits, Qubits.mentions] using hm

/-- The two indices are different, and the size of a pair mentions neither. -/
theorem hygienic_lowerCall_pairs :
    NoIndex (pairs.mentions ·) ∧ NoIndex (manyQubits.mentions ·) ∧ pairs.Separated ∧
      (lowerCall manyQubits none pairs Scopes.initial).1 = .ok pairsCode ∧
      ∀ xs i, Under pairsCode xs i → Hygienic xs i :=
  have hseparated : pairs.Separated := by decide +kernel
  ⟨noIndex_pairs, noIndex_manyQubits, hseparated, lowerCall_pairs,
    hygienic_lowerCall noIndex_pairs noIndex_manyQubits hseparated lowerCall_pairs⟩

end Lowering

end QuantumLowering
