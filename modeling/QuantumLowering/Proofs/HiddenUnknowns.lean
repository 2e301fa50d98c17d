/-
  Hidden unknowns do not get into lowered code.

  * `Operation.exposes x op`: the unknown occurs in a control, a number of copies, an argument, or
    in the size of a definition that is not solved for it.
  * `Operation.exposes_of_mentions_size`: a determined size mentions only what is exposed.
  * `Lowering.Concealed x xs q`: a target that mentions the name only as the index of one of the
    loops `xs`, and not in a size.  This is what lowering keeps from a target to its parts.
  * `Instruction.Conceals x xs i`: the same for an instruction inside of these loops; its bounds and
    arguments do not mention the name at all.
  * `conceals_lowerCall`: lowered code conceals every unknown that the operation does not expose and
    the target does not mention.
  * `mentions_lowerCall_twoCopies`: an unknown with the name of an index occurs in an address.

  The sizes that get into code are determined ones, those of the target, and quotients and
  differences of these; the size of an operation that is solved for an unknown is never among them.
-/
import QuantumLowering.Proofs.Hygiene
import QuantumLowering.Proofs.SizeSafety
import QuantumLowering.TextHash

namespace QuantumLowering

open Instruction

variable {x : String}

/-! ## What an operation exposes -/

namespace Operation

mutual
/-- Whether the unknown `x` occurs in an operation otherwise than in the size of a definition that
    each call solves for it. -/
def exposes (x : String) : Operation → Bool
  | .elementary (.gate _) _ => false
  | .elementary (.call d args) _ =>
    (d.hidden != some x && d.size.mentions x) || args.any (·.mentions x)
  | .sequence ops _ | .combination ops _ => exposesAny x ops
  | .power base copies _ => exposes x base || copies.mentions x
  | .adjoint base _ => exposes x base
  | .scaled _ base _ => exposes x base
  | .choice control a b _ => control.mentions x || exposes x a || exposes x b

/-- Whether one of several operations exposes the unknown `x`. -/
def exposesAny (x : String) : List Operation → Bool
  | [] => false
  | op :: ops => exposes x op || exposesAny x ops
end

theorem exposesAny_iff {ops : List Operation} :
    exposesAny x ops ↔ ∃ op ∈ ops, op.exposes x := by
  induction ops with
  | nil => simp [exposesAny]
  | cons op ops ih => simp [exposesAny, ih]

mutual
/-- A determined size mentions only what the operation exposes: one with the unknown that a call is
    solved for is not determined. -/
theorem exposes_of_mentions_size : ∀ {op : Operation}, op.isDetermined → op.size.mentions x →
    op.exposes x
  | .elementary (.gate _) _, _, h => by simp [size] at h
  | .elementary (.call d args) _, hd, h => by
    have h : d.size.mentions x := h
    have hne : d.hidden ≠ some x := by
      intro hx
      simp [isDetermined, callIsDetermined, hx, h] at hd
    simp [exposes, h, hne]
  | .sequence .., hd, h => by
    rw [exposes]
    exact exposesAny_of_sequenceSize hd h
  | .combination .., hd, h => by
    rw [exposes]
    exact exposesAny_of_totalSize hd h
  | .power base copies _, hd, h => by
    have hd : base.isDetermined := hd
    rw [exposes, Bool.or_eq_true]
    exact (Quantity.mentions_mul h).symm.imp_left (exposes_of_mentions_size hd)
  | .adjoint base _, hd, h | .scaled _ base _, hd, h => by
    have hd : base.isDetermined := hd
    have h : base.size.mentions x := h
    rw [exposes]
    exact exposes_of_mentions_size hd h
  | .choice _ a _ _, hd, h => by
    have hd : a.isDetermined := hd
    have h : a.size.mentions x := h
    simp [exposes, exposes_of_mentions_size hd h]

theorem exposesAny_of_sequenceSize : ∀ {ops : List Operation}, anyDetermined ops →
    (sequenceSize ops).mentions x → exposesAny x ops
  | op :: ops, hd, h => by
    rw [exposesAny, Bool.or_eq_true]
    by_cases hop : op.isDetermined
    · rw [sequenceSize, hop, Bool.true_or, if_pos rfl] at h
      exact .inl (exposes_of_mentions_size hop h)
    · have hops : anyDetermined ops := by simpa [anyDetermined, hop] using hd
      simp only [sequenceSize, hop, hops, Bool.not_true, Bool.or_false] at h
      exact .inr (exposesAny_of_sequenceSize hops h)

theorem exposesAny_of_totalSize : ∀ {ops : List Operation}, allDetermined ops →
    (totalSize ops).mentions x → exposesAny x ops
  | [], _, h => by simp [totalSize] at h
  | _ :: _, hd, h => by
    simp only [allDetermined, Bool.and_eq_true] at hd
    rw [exposesAny, Bool.or_eq_true]
    exact (Quantity.mentions_add h).imp (exposes_of_mentions_size hd.1)
      (exposesAny_of_totalSize hd.2)
end

end Operation

namespace Lowering

open Operation (exposesAny exposesAny_iff exposes_of_mentions_size)

variable {op base : Operation} {ops : List Operation} {target part : Qubits}
variable {own l : Option Location} {copies partSize start stop : Quantity}

/-! ## Sizes of parts -/

theorem exposesAny_of_knownSize : ∀ {ops : List Operation}, (knownSize ops).mentions x →
    exposesAny x ops
  | [], h => by simp [knownSize] at h
  | op :: ops, h => by
    rw [exposesAny, Bool.or_eq_true]
    by_cases hop : op.isDetermined
    · rw [knownSize, if_pos hop] at h
      exact (Quantity.mentions_add h).imp (exposes_of_mentions_size hop) exposesAny_of_knownSize
    · rw [knownSize, if_neg hop] at h
      exact .inr (exposesAny_of_knownSize h)

/-- The size of a part mentions what the power exposes or the size of the target mentions. -/
theorem mentions_copySize (h : copySize base copies own target l = .ok partSize)
    (hx : partSize.mentions x) :
    (Operation.power base copies own).exposes x ∨ target.size.mentions x := by
  rw [Operation.exposes, Bool.or_eq_true]
  unfold copySize at h
  split at h
  · rename_i hd
    obtain rfl := Except.ok.inj h
    exact .inl (.inl (exposes_of_mentions_size hd hx))
  · unfold equalPart at h
    dsimp only at h
    split at h
    · rename_i part hpart
      obtain rfl := Except.ok.inj h
      exact .inr (Quantity.mentions_divExact? hpart hx)
    · split at h
      · simp at h
      · obtain rfl := Except.ok.inj h
        exact (Quantity.mentions_div hx).symm.imp_left .inr

theorem mentions_splitSizes {sizes : List Quantity} {size : Quantity}
    (h : splitSizes op ops target l = .ok sizes) (hsize : size ∈ sizes) (hx : size.mentions x) :
    exposesAny x ops ∨ target.size.mentions x := by
  obtain ⟨rfl, -⟩ := splitSizes_eq_ok h
  obtain ⟨op, hop, rfl⟩ := List.mem_map.1 hsize
  split at hx
  · rename_i hd
    exact .inl (exposesAny_iff.2 ⟨op, hop, exposes_of_mentions_size hd hx⟩)
  · exact (Quantity.mentions_sub hx).symm.imp_left exposesAny_of_knownSize

/-- The arguments of a call mention what its own arguments or the size of the target mention. -/
theorem mentions_resolveArgs {d : Definition} {args resolved : List ClassicalValue}
    {v : ClassicalValue} (h : resolveArgs d args target l = .ok resolved) (hv : v ∈ resolved)
    (hx : v.mentions x) : (∃ a ∈ args, a.mentions x) ∨ target.size.mentions x := by
  unfold resolveArgs at h
  split at h
  · obtain rfl := Except.ok.inj h
    exact .inl ⟨v, hv, hx⟩
  · split at h
    · rename_i value hvalue
      obtain rfl := Except.ok.inj h
      rcases List.mem_cons.1 hv with rfl | hv
      · exact .inr (Quantity.mentions_solve? hvalue hx)
      · exact .inl ⟨v, hv, hx⟩
    · simp at h

/-! ## Targets -/

variable {xs ys : List ClassicalVariable} {q r : Qubits}

/-- The qubits mention the name `x` only as the index of one of the loops around them, and not in a
    size. -/
structure Concealed (x : String) (xs : List ClassicalVariable) (q : Qubits) : Prop where
  bound : q.mentions x → IndexName x ∧ x ∈ xs.map (·.name)
  sizes : ∀ r, q.Reaches r → ¬ r.size.mentions x

namespace Concealed

theorem of_not_mentions (h : ¬ q.mentions x) : Concealed x xs q where
  bound hq := absurd hq h
  sizes _ hr hsize := h (hr.mentions (Qubits.mentions_size hsize))

theorem of_reaches (h : Concealed x xs q) (hr : q.Reaches r) : Concealed x xs r where
  bound hmentions := h.bound (hr.mentions hmentions)
  sizes t ht := h.sizes t (hr.trans ht)

theorem size (h : Concealed x xs q) : ¬ q.size.mentions x := h.sizes q (.refl q)

/-- A part of a target, in further loops. -/
theorem of_parts (h : Concealed x xs target) (hsub : xs ⊆ ys) (hparts : part.parts = [target])
    (hbound : part.mentions x → target.mentions x ∨ (IndexName x ∧ x ∈ ys.map (·.name)))
    (hsize : ¬ part.size.mentions x) : Concealed x ys part where
  bound hpart := (hbound hpart).elim
    (fun htarget => (h.bound htarget).imp_right fun hx => List.map_subset _ hsub hx) id
  sizes r hr := by
    cases hr with
    | refl => exact hsize
    | part hp hr =>
      rw [hparts, List.mem_singleton] at hp
      exact h.sizes r (hp ▸ hr)

theorem element {index : Quantity} (h : Concealed x xs target) (hsub : xs ⊆ ys)
    (hindex : index.mentions x → IndexName x ∧ x ∈ ys.map (·.name))
    (hpart : target.element index = .ok part) : Concealed x ys part := by
  obtain ⟨rfl, -⟩ := Qubits.element_ok hpart
  refine h.of_parts hsub rfl (fun hpart => ?_) (by rw [Qubits.size]; simp)
  rw [Qubits.mentions, Bool.or_eq_true] at hpart
  exact hpart.imp_right hindex

/-- A slice, if its span does not mention the name. -/
theorem slice (h : Concealed x xs target) (hsub : xs ⊆ ys)
    (hstart : start.mentions x → IndexName x ∧ x ∈ ys.map (·.name))
    (hstop : stop.mentions x → IndexName x ∧ x ∈ ys.map (·.name))
    (hspan : ¬ (stop - start).mentions x) (hpart : target.slice start stop = .ok part) :
    Concealed x ys part := by
  obtain ⟨-, -, ⟨-, hpart⟩ | ⟨-, -, rfl⟩⟩ := Qubits.slice_ok hpart
  · exact h.element hsub hstart hpart
  · refine h.of_parts hsub rfl (fun hpart => ?_) fun hsize => ?_
    · simp only [Qubits.mentions, Bool.or_eq_true, Quantity.not_mentions_const, Bool.false_eq_true,
        or_false] at hpart
      rcases hpart with (hpart | hpart) | hpart
      · exact .inl hpart
      · exact .inr (hstart hpart)
      · exact .inr (hstop hpart)
    · rw [Qubits.size] at hsize
      exact (Quantity.mentions_div hsize).elim hspan (by simp)

/-- The part of one copy, in the loop that counts the copies. -/
theorem copyPart {y : ClassicalVariable} (h : Concealed x xs target) (hy : IndexName y.name)
    (hsize : ¬ partSize.mentions x)
    (hpart : Lowering.copyPart target partSize y.quantity = .ok part) :
    Concealed x (xs ++ [y]) part := by
  have hsub : xs ⊆ xs ++ [y] := List.subset_append_left xs [y]
  have hindex : y.quantity.mentions x → IndexName x ∧ x ∈ (xs ++ [y]).map (·.name) := by
    intro hx
    obtain rfl := Quantity.mentions_named.1 hx
    exact ⟨hy, by simp⟩
  have hstart : (partSize * y.quantity).mentions x → IndexName x ∧ x ∈ (xs ++ [y]).map (·.name) :=
    fun hx => hindex ((Quantity.mentions_mul hx).resolve_left hsize)
  -- the multiples of the index cancel; they have to only where the name is that of the index
  have hspan : ¬ (partSize * y.quantity + partSize - partSize * y.quantity).mentions x := by
    intro hx
    by_cases hyx : y.name = x
    · subst hyx
      exact hsize (Quantity.mentions_copySpan hsize hx)
    · have hmultiple : ¬ (partSize * y.quantity).mentions x := fun hx =>
        (Quantity.mentions_mul hx).elim hsize fun hx => hyx (Quantity.mentions_named.1 hx)
      have hstop := (Quantity.mentions_sub hx).resolve_right hmultiple
      exact (Quantity.mentions_add hstop).elim hmultiple hsize
  rcases copyPart_ok hpart with ⟨-, hpart⟩ | ⟨-, hpart⟩
  · exact h.element hsub hindex hpart
  · refine h.slice hsub hstart (fun hx => ?_) hspan hpart
    exact hstart ((Quantity.mentions_add hx).resolve_right hsize)

end Concealed

end Lowering

/-! ## Code inside of loops -/

open Lowering

/-- The qubits of an instruction mention the name `x` only as the index of one of the loops around
    it, and not in a size; its bounds and arguments do not mention it. -/
structure Instruction.Conceals (x : String) (xs : List ClassicalVariable) (i : Instruction) :
    Prop where
  addresses : ∀ q ∈ i.qubits, q.mentions x → IndexName x ∧ x ∈ xs.map (·.name)
  sizes : ∀ q ∈ i.qubits, ∀ r, q.Reaches r → ¬ r.size.mentions x
  bounds : ∀ y range body l, i = .loop y range body l → ¬ range.mentions x
  arguments : ∀ d args q l, i = .act (.apply (.call d args) q) l → ∀ a ∈ args, ¬ a.mentions x

namespace Instruction.Conceals

variable {xs : List ClassicalVariable} {q : Qubits} {l : Option Location} {copies : Quantity}

/-- Instructions without a body on such targets. -/
theorem act {action : Action} (ha : ∀ q ∈ action.qubits, Concealed x xs q)
    (hargs : ∀ d args q, action = .apply (.call d args) q → ∀ a ∈ args, ¬ a.mentions x) :
    (Instruction.act action l).Conceals x xs where
  addresses q hq := (ha q hq).bound
  sizes q hq := (ha q hq).sizes
  bounds _ _ _ _ heq := by simp at heq
  arguments d args q _ heq := hargs d args q (by simp_all)

theorem loop {y : ClassicalVariable} {body : List Instruction} (hcopies : ¬ copies.mentions x) :
    (Instruction.loop y (.upTo (.const 0) copies) body l).Conceals x xs where
  addresses _ hq := absurd hq List.not_mem_nil
  sizes _ hq := absurd hq List.not_mem_nil
  bounds _ _ _ _ heq := by
    obtain ⟨-, rfl, -⟩ := Instruction.loop.inj heq
    simpa [LoopRange.mentions, LoopRange.upTo] using hcopies
  arguments _ _ _ _ heq := by simp at heq

theorem declarations {s : Scopes} (hq : Concealed x xs q) :
    Everywhere (Conceals x) xs (QuantumLowering.declarations (s.use q).1) :=
  Everywhere.declarations fun _ hd =>
    act (List.forall_mem_singleton.2 (hq.of_reaches (Scopes.reaches_of_mem_use hd))) (by simp)

end Instruction.Conceals

/-! ## Lowering -/

namespace Lowering

open Operation (exposesAny)

variable [Fingerprint]

mutual
theorem lowerCall_conceals : ∀ {op : Operation} {xs : List ClassicalVariable} {target : Qubits}
    {site : Option Location} {s s' : Scopes} {code : List Instruction},
    ¬ op.exposes x → Concealed x xs target → Yields (lowerCall target site op) s code s' →
    Everywhere (Conceals x) xs code
  | .elementary (.gate _) _, _, _, _, _, _, _, _, ht, h => by
    rcases lowerCall_gate h with ⟨-, rfl, -⟩ | ⟨-, -, rfl⟩
    · exact .nil
    · exact (Conceals.declarations ht).append
        (.act (Conceals.act (List.forall_mem_singleton.2 ht) (by simp)))
  | .elementary (.call d args) _, _, _, _, _, _, _, hop, ht, h => by
    obtain ⟨resolved, hresolved, -, rfl⟩ := lowerCall_call h
    have hargs : ∀ a ∈ resolved, ¬ a.mentions x := by
      intro a ha hx
      refine (mentions_resolveArgs hresolved ha hx).elim (fun ⟨b, hb, hx⟩ => hop ?_) ht.size
      simpa [Operation.exposes] using .inr ⟨b, hb, hx⟩
    refine (Conceals.declarations ht).append
      (.act (Conceals.act (List.forall_mem_singleton.2 ht) fun _ _ _ heq => ?_))
    obtain ⟨⟨-, rfl⟩, -⟩ : (_ ∧ _) ∧ _ := by simpa using heq
    exact hargs
  | .sequence .., _, _, _, _, _, _, hop, ht, h => by
    rw [Operation.exposes] at hop
    exact lowerSequence_conceals hop ht (lowerCall_sequence h)
  | .combination .., _, _, _, _, _, _, hop, ht, h => by
    obtain ⟨_, hsizes, h⟩ := lowerCall_combination h
    rw [Operation.exposes] at hop
    exact lowerParts_conceals hop ht (by simp)
      (fun _ hsize hx => (mentions_splitSizes hsizes hsize hx).elim hop ht.size) h
  | .power .., _, _, _, _, _, _, hop, ht, h => by
    obtain ⟨_, part, body, _, hsize, hpart, hbody, -, rfl⟩ := lowerCall_power h
    have hsize : ¬ Quantity.mentions _ x := fun hx => (mentions_copySize hsize hx).elim hop ht.size
    simp only [Operation.exposes, Bool.or_eq_true, not_or] at hop
    have hpart := ht.copyPart (indexName_powerIndex _) hsize hpart
    exact (Conceals.declarations ht).append (.single (Conceals.loop hop.2)
      (List.forall_mem_singleton.2 (lowerCall_conceals hop.1 hpart hbody)))
  | .adjoint .., _, _, _, _, _, _, hop, ht, h => by
    obtain ⟨_, _, hbody, -, rfl⟩ := lowerCall_adjoint h
    rw [Operation.exposes] at hop
    exact (Conceals.declarations ht).append (.region (lowerCall_conceals hop ht hbody)
      (Conceals.act (by simp [Action.qubits]) (by simp))
      (Conceals.act (by simp [Action.qubits]) (by simp)))
  | .scaled .., _, _, _, _, _, _, hop, ht, h => by
    rw [Operation.exposes] at hop
    exact lowerCall_conceals hop ht (lowerCall_scaled h)
  | .choice control .., xs, _, _, _, _, _, hop, ht, h => by
    obtain ⟨whereFalse, whereTrue, _, _, hFalse, hTrue, hm, rfl⟩ := lowerCall_choice h
    simp only [Operation.exposes, Bool.or_eq_true, not_or] at hop
    have hcontrol : Concealed x xs control := .of_not_mentions hop.1.1
    exact (Conceals.declarations hcontrol).append ((Conceals.declarations ht).append
      (.pair (fun _ => Conceals.act (List.forall_mem_singleton.2 hcontrol) (by simp))
        (Conceals.act (List.forall_mem_singleton.2 hcontrol) (by simp))
        (lowerCall_conceals hop.2 ht hFalse) (lowerCall_conceals hop.1.2 ht hTrue) hm))

theorem lowerSequence_conceals : ∀ {ops : List Operation} {xs : List ClassicalVariable}
    {target : Qubits} {site : Option Location} {s s' : Scopes} {code : List Instruction},
    ¬ exposesAny x ops → Concealed x xs target → Yields (lowerSequence target site ops) s code s' →
    Everywhere (Conceals x) xs code
  | [], _, _, _, _, _, _, _, _, h => by obtain ⟨rfl, -⟩ := lowerSequence_nil h; exact .nil
  | _ :: _, _, _, _, _, _, _, hops, ht, h => by
    obtain ⟨-, _, _, _, hfirst, hrest, rfl⟩ := lowerSequence_cons h
    simp only [Operation.exposesAny, Bool.or_eq_true, not_or] at hops
    exact (lowerCall_conceals hops.1 ht hfirst).append (lowerSequence_conceals hops.2 ht hrest)

theorem lowerParts_conceals : ∀ {ops : List Operation} {xs : List ClassicalVariable}
    {target : Qubits} {site : Option Location} {start : Quantity} {sizes : List Quantity}
    {s s' : Scopes} {code : List Instruction},
    ¬ exposesAny x ops → Concealed x xs target → ¬ start.mentions x →
    (∀ size ∈ sizes, ¬ size.mentions x) →
    Yields (lowerParts target site start sizes ops) s code s' → Everywhere (Conceals x) xs code
  | [], _, _, _, _, _, _, _, _, _, _, _, _, h => by
    obtain ⟨rfl, -⟩ := lowerParts_nil h; exact .nil
  | _ :: _, xs, _, _, _, _, _, _, _, hops, ht, hstart, hsizes, h => by
    rcases lowerParts_cons h with
      ⟨-, rfl, -⟩ | ⟨_, _, _, _, _, _, rfl, hpart, hfirst, hrest, rfl⟩
    · exact .nil
    · simp only [Operation.exposesAny, Bool.or_eq_true, not_or] at hops
      obtain ⟨hsize, hsizes⟩ := List.forall_mem_cons.1 hsizes
      have hstop : ¬ Quantity.mentions _ x := fun hx => (Quantity.mentions_add hx).elim hstart hsize
      have hpart := ht.slice (List.Subset.refl xs) (absurd · hstart) (absurd · hstop)
        (fun hx => (Quantity.mentions_sub hx).elim hstop hstart) hpart
      exact (lowerCall_conceals hops.1 hpart hfirst).append
        (lowerParts_conceals hops.2 ht hstop hsizes hrest)
end

/-- **Hidden unknowns do not leak.**  An unknown that occurs neither in the target nor in the
    operation, except in the sizes of definitions that are solved for it, is mentioned by no loop
    bound, no size and no argument in the lowered code.  Addresses do not mention it either, except
    that it may have the name of a generated index, which then stands for the index of a loop around
    the instruction. -/
theorem conceals_lowerCall {op : Operation} {target : Qubits} {site : Option Location} {s : Scopes}
    {code : List Instruction} (hop : ¬ op.exposes x) (htarget : ¬ target.mentions x)
    (h : (lowerCall target site op s).1 = .ok code) :
    ∀ xs i, Under code xs i → i.Conceals x xs := by
  have ht : Concealed x [] target := .of_not_mentions htarget
  exact lowerCall_conceals hop ht ⟨h, rfl⟩

end Lowering

/-! ## Pairs in a register of known size -/

namespace Lowering

/-- `pairwise` on each third of the target. -/
def thirds : Operation := .power (.elementary (.call pairwise []) none) (.const 3) none

/-- A register of six qubits. -/
def sixQubits : Qubits := .register ⟨"q", .const 6, .owner⟩

/-- The third of the register at the index of the loop. -/
def third : Qubits :=
  .strided sixQubits (.const 2 * (powerIndex thirds).quantity)
    (.const 2 * (powerIndex thirds).quantity + .const 2) (.const 1)

/-- The argument is half of the size of a third, and the unknown has gone. -/
def thirdsCode : List Instruction :=
  [.loop (powerIndex thirds) (.upTo (.const 0) (.const 3))
    [.act (.declare third) none,
      .act (.apply (.call pairwise [.int ((third.size - .const 0) / .const 2)]) third) none] none]

theorem copySize_thirds :
    copySize (.elementary (.call pairwise []) none) (.const 3) none sixQubits none =
      .ok (.const 2) := by
  simp only [copySize, equalPart, sixQubits, Qubits.size]
  rfl

theorem constant?_third : ((.const 2 * (powerIndex thirds).quantity + .const 2 -
    .const 2 * (powerIndex thirds).quantity : Quantity)).constant? = some 2 :=
  Quantity.constant?_copySpan (show (Quantity.const 2).constant? = some 2 from rfl)

theorem copyPart_third :
    copyPart sixQubits (.const 2) (powerIndex thirds).quantity = .ok third := by
  have hone : (Quantity.const 2).isConst 1 = false := rfl
  have hstart : (.const 2 * (powerIndex thirds).quantity : Quantity).constant? = none := rfl
  have hstop : (.const 2 * (powerIndex thirds).quantity + .const 2 : Quantity).constant? = none :=
    rfl
  simp only [copyPart, hone, Bool.false_eq_true, if_false, Qubits.slice, Qubits.sliceWith,
    constant?_third, hstart, Qubits.pastEnd?, hstop]
  rfl

theorem resolveArgs_third : resolveArgs pairwise [] third none =
    .ok [.int ((third.size - .const 0) / .const 2)] := by
  have hsize : third.size.constant? = some 2 := by
    rw [third, Qubits.size]
    exact Quantity.constant?_div constant?_third (by decide) (by decide)
  have hrest : (third.size - .const 0).constant? = some 2 :=
    Quantity.constant?_sub hsize (Quantity.constant?_const (c := 0))
  have hlinear : pairwise.size.linearIn? "n" = some (0, 2) := rfl
  have hhidden : pairwise.hidden = some "n" := rfl
  simp only [resolveArgs, hhidden, Quantity.solve?, hlinear, hrest]
  rfl

theorem lowerCall_thirds :
    (lowerCall sixQubits none thirds Scopes.initial).1 = .ok thirdsCode := by
  have huse : (Scopes.initial.enter.use third).1 = [third] := by
    simp [third, sixQubits, Scopes.use]
  have hbody : Yields (lowerCall third none (.elementary (.call pairwise []) none))
      Scopes.initial.enter _ _ := yields_lowerCall_call resolveArgs_third
  rw [huse] at hbody
  have hthirds : Yields (lowerCall sixQubits none thirds) Scopes.initial _ _ :=
    yields_lowerCall_power copySize_thirds copyPart_third hbody
  exact hthirds.1

/-- The size of `pairwise` is twice the unknown, and nothing in the code mentions it. -/
theorem conceals_lowerCall_thirds :
    ¬ thirds.exposes "n" ∧ ¬ sixQubits.mentions "n" ∧
      (lowerCall sixQubits none thirds Scopes.initial).1 = .ok thirdsCode ∧
      ∀ xs i, Under thirdsCode xs i → i.Conceals "n" xs :=
  have hop : ¬ thirds.exposes "n" := by decide
  have htarget : ¬ sixQubits.mentions "n" := by decide
  ⟨hop, htarget, lowerCall_thirds, conceals_lowerCall hop htarget lowerCall_thirds⟩

/-! ## An unknown with the name of an index -/

/-- An operation `u` on as many qubits as its target has.  The unknown for their number is named
    like the index of the loop over the copies in `u@2`. -/
def namesake : Definition :=
  let n := "ext_iter_741e3f4fcbc12687"
  ⟨"u", [], ⟨⟨"r", .named n, .reference⟩, some n⟩, none⟩

/-- Two copies of it. -/
def twoCopies : Operation := .power (.elementary (.call namesake []) none) (.const 2) none

/-- A register of two qubits. -/
def twoQubits : Qubits := .register ⟨"q", .const 2, .owner⟩

/-- The qubit of a copy. -/
def copyQubit : Qubits := .single twoQubits (.named "ext_iter_741e3f4fcbc12687")

/-- The qubit is addressed by the index of the loop. -/
def twoCopiesCode : List Instruction :=
  [.loop ⟨"ext_iter_741e3f4fcbc12687", .int⟩ (.upTo (.const 0) (.const 2))
    [.act (.declare copyQubit) none,
      .act (.apply (.call namesake [.int ((.const 1 - .const 0) / .const 1)]) copyQubit) none] none]

theorem powerIndex_twoCopies : powerIndex twoCopies = ⟨"ext_iter_741e3f4fcbc12687", .int⟩ := by
  have hname : (powerIndex twoCopies).name = "ext_iter_741e3f4fcbc12687" := by decide +kernel
  rw [← hname]
  rfl

theorem copySize_twoCopies :
    copySize (.elementary (.call namesake []) none) (.const 2) none twoQubits none =
      .ok (.const 1) := by
  simp only [copySize, equalPart, twoQubits, Qubits.size]
  rfl

theorem resolveArgs_copyQubit : resolveArgs namesake [] copyQubit none =
    .ok [.int ((.const 1 - .const 0) / .const 1)] := by
  simp only [resolveArgs, copyQubit, Qubits.size]
  rfl

theorem lowerCall_twoCopies :
    (lowerCall twoQubits none twoCopies Scopes.initial).1 = .ok twoCopiesCode := by
  have huse : (Scopes.initial.enter.use copyQubit).1 = [copyQubit] := by
    simp [copyQubit, twoQubits, Scopes.use]
  have hbody : Yields (lowerCall copyQubit none (.elementary (.call namesake []) none))
      Scopes.initial.enter _ _ := yields_lowerCall_call resolveArgs_copyQubit
  rw [huse] at hbody
  have hpart : copyPart twoQubits (.const 1) (powerIndex twoCopies).quantity = .ok copyQubit := by
    rw [powerIndex_twoCopies]
    rfl
  have htwo : Yields (lowerCall twoQubits none twoCopies) Scopes.initial _ _ :=
    yields_lowerCall_power copySize_twoCopies hpart hbody
  have hcode := htwo.1
  rw [show powerIndex (.power _ _ _) = _ from powerIndex_twoCopies] at hcode
  exact hcode

/-- Neither operation nor target mentions the unknown otherwise, but an address in the code does. -/
theorem mentions_lowerCall_twoCopies :
    namesake.hidden = some "ext_iter_741e3f4fcbc12687" ∧
      ¬ twoCopies.exposes "ext_iter_741e3f4fcbc12687" ∧
      ¬ twoQubits.mentions "ext_iter_741e3f4fcbc12687" ∧
      Statement.ofCall twoCopies twoQubits none = .ok (.call twoCopies twoQubits none) ∧
      (lowerCall twoQubits none twoCopies Scopes.initial).1 = .ok twoCopiesCode ∧
      ∃ xs i, Under twoCopiesCode xs i ∧
        ∃ q ∈ i.qubits, q.mentions "ext_iter_741e3f4fcbc12687" := by
  refine ⟨rfl, by decide, by decide, rfl, lowerCall_twoCopies, _, _,
    .body List.mem_cons_self List.mem_cons_self (.here List.mem_cons_self), copyQubit,
    List.mem_cons_self, by decide⟩

end Lowering

end QuantumLowering
