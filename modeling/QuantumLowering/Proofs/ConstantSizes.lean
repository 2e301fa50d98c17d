/-
  Operations of constant size are always lowered.

  * `Operation.WellSized`: built from gates and from calls of constant size at least one, with
    constant numbers of copies and without overflow.
  * `Operation.Measured`: the size of the operation is a positive constant, its exact width.
  * `Qubits.exists_slice`, `Lowering.exists_copyPart`: bounds inside of a register are accepted.
  * `Operation.Lowers`: lowering succeeds on each target that is as wide as the operation.
  * `exists_lowerStatement`: a call of a well-sized operation that has been accepted is lowered.

  The check of a target looks at the size of the whole operation only.  That no part of it is
  refused later comes from the constructors: the elements of a product and the branches of a choice
  are of one width, and the parts of a target are as wide as what acts on them.
-/
import QuantumLowering.Proofs.Parts
import QuantumLowering.TextHash

namespace QuantumLowering

/-! ## Addresses inside of a register -/

namespace Qubits

variable {q : Qubits} {index start stop : Quantity} {n d : Int64}

theorem element_eq_ok (hsize : q.size.constant? = some n)
    (hindex : ∀ i, index.constant? = some i → 0 ≤ i ∧ i < n) :
    q.element index = .ok (.single q index) := by
  unfold element
  split
  · rfl
  · rename_i i hi
    obtain ⟨hlow, hhigh⟩ := hindex i hi
    simp [hsize, Int64.not_lt.2 hlow, Int64.not_le.2 hhigh]

theorem exists_slice (hsize : q.size.constant? = some n)
    (hstart : ∀ c, start.constant? = some c → 0 ≤ c ∧ c < n)
    (hstop : ∀ e, stop.constant? = some e → e ≤ n)
    (hspan : (stop - start).constant? = some d) (hd : 0 < d) :
    ∃ part, q.slice start stop = .ok part := by
  have hstep : (Quantity.const 1).constant?.any (· ≤ 0) = false := rfl
  have hfirst : start.constant?.any (· < 0) = false := by
    cases hc : start.constant? with
    | none => rfl
    | some c => simpa using (hstart c hc).1
  have hempty : (some d).any (· ≤ 0) = false := by simpa using hd
  have hend : q.pastEnd? stop = none := by
    unfold pastEnd?
    split
    · rename_i e m he hm
      obtain rfl : n = m := Option.some.inj (hsize.symm.trans hm)
      exact if_neg (Int64.not_lt.2 (hstop e he))
    · rfl
  simp only [slice, sliceWith, Bool.false_eq_true, if_false, hstep, hfirst, hspan, hempty, hend]
  split
  · exact ⟨_, element_eq_ok hsize hstart⟩
  · exact ⟨_, rfl⟩

end Qubits

namespace Lowering

variable {target part : Qubits} {partSize : Quantity} {n c : Int64} {x : String}

/-- Multiples of an unknown are not constant. -/
theorem constant?_multiple (hpart : partSize.constant? = some c) (hc : 0 < c) :
    (partSize * .named x).constant? = none ∧
      (partSize * .named x + partSize).constant? = none := by
  -- the values at zero and at one differ by the factor
  have hne : c ≠ 0 := by rintro rfl; exact absurd hc (by decide)
  have heval : ∀ v : Int64, partSize.eval (fun _ => v) = c :=
    fun v => Quantity.eval_of_constant? hpart
  have hmul : ∀ v : Int64, (partSize * .named x).eval (fun _ => v) = c * v :=
    fun v => Quantity.eval_mul_named hpart
  constructor <;> rw [Option.eq_none_iff_forall_ne_some] <;> intro d hd
  · have hzero := Quantity.eval_of_constant? hd (ρ := fun _ => 0)
    have hone := Quantity.eval_of_constant? hd (ρ := fun _ => 1)
    rw [hmul] at hzero hone
    grind
  · have hzero := Quantity.eval_of_constant? hd (ρ := fun _ => 0)
    have hone := Quantity.eval_of_constant? hd (ρ := fun _ => 1)
    rw [Quantity.eval_add, hmul, heval] at hzero hone
    grind

/-- Each copy has a part, whatever the constant size of the target is. -/
theorem exists_copyPart (htarget : target.size.constant? = some n)
    (hpart : partSize.constant? = some c) (hc : 0 < c) :
    ∃ part, copyPart target partSize (.named x) = .ok part := by
  obtain ⟨hstart, hstop⟩ := constant?_multiple (x := x) hpart hc
  unfold copyPart
  split
  · have hindex : (Quantity.named x).constant? = none := rfl
    exact ⟨_, Qubits.element_eq_ok htarget (by simp [hindex])⟩
  · exact Qubits.exists_slice htarget (by simp [hstart]) (by simp [hstop])
      (Quantity.constant?_copySpan hpart) hc

end Lowering

/-! ## Well-sized operations -/

namespace Operation

/-- Operations that are constructed from gates and from calls of constant size, with constant
    numbers of copies, and of which no part has a size that overflows. -/
inductive WellSized : Operation → Prop
  | gate (g : Gate) : WellSized (ofGate g)
  | call {d args op c} : d.hidden = none → d.size.constant? = some c → 1 ≤ c →
      ofCall d args = .ok op → WellSized op
  | sequence {ops op} : (∀ o ∈ ops, WellSized o) → ofSequence ops = .ok op → WellSized op
  | combination {ops op} : (∀ o ∈ ops, WellSized o) → ofCombination ops = .ok op →
      fits64 op.width → WellSized op
  | power {base copies m} : WellSized base → copies.constant? = some m → 1 ≤ m →
      fits64 (ofPower base copies).width → WellSized (ofPower base copies)
  | adjoint {base} : WellSized base → WellSized (ofAdjoint base)
  | scaled {base} (c : Scalar) : WellSized base → WellSized (ofScaled c base)
  | choice {control a b op} : WellSized a → WellSized b → ofChoice control a b = .ok op →
      WellSized op
  | withLocation {op} (l : Location) : WellSized op → WellSized (op.withLocation l)

/-- The size is a positive constant: the exact width. -/
structure Measured (op : Operation) : Prop where
  determined : op.isDetermined
  positive : 0 < op.width
  small : fits64 op.width
  size : op.size.constant? = some (Int64.ofInt op.width)

variable {op a b : Operation} {ops : List Operation} {l : Option Location}

theorem Measured.width_eq (ha : a.Measured) (hb : b.Measured)
    (h : a.size.surelyDiffers b.size = false) : a.width = b.width :=
  ofInt_inj ha.small hb.small (Quantity.eq_of_not_surelyDiffers ha.size hb.size h)

theorem Measured.size_ne_zero (h : op.Measured) : Int64.ofInt op.width ≠ 0 := by
  intro hzero
  have hwidth : op.width = 0 := ofInt_inj h.small (by rw [fits64_iff]; omega) hzero
  have := h.positive
  omega

theorem Measured.gate {g : Gate} : (elementary (.gate g) l).Measured := by
  have hg : 0 < g.qubits ∧ g.qubits ≤ 2 := by cases g <;> simp [Gate.qubits]
  refine ⟨rfl, ?_, ?_, Quantity.constant?_const⟩ <;> simp only [width, fits64_iff] <;> omega

theorem Measured.call {d : Definition} {args : List ClassicalValue} {c : Int64}
    (hhidden : d.hidden = none) (hsize : d.size.constant? = some c) (hc : 1 ≤ c) :
    (elementary (.call d args) l).Measured := by
  have hpos : 1 ≤ c.toInt := Int64.le_iff_toInt_le.1 hc
  refine ⟨by simp [isDetermined, callIsDetermined, hhidden], ?_, ?_, ?_⟩
  · simpa [width, hsize] using Int.lt_of_add_one_le hpos
  · simpa [width, hsize] using fits64_toInt c
  · simp [width, hsize, Operation.size]

section
variable (hops : ∀ op ∈ ops, op.Measured)
include hops

theorem allDetermined_of_measured : allDetermined ops := by
  induction ops with
  | nil => rfl
  | cons op ops ih =>
    obtain ⟨hop, hops⟩ := List.forall_mem_cons.1 hops
    simp [allDetermined, hop.determined, ih hops]

theorem constant?_totalSize_of_measured :
    (totalSize ops).constant? = some (Int64.ofInt (knownWidth ops)) := by
  induction ops with
  | nil => rfl
  | cons op ops ih =>
    obtain ⟨hop, hops⟩ := List.forall_mem_cons.1 hops
    rw [totalSize, knownWidth, if_pos hop.determined, Int64.ofInt_add]
    exact Quantity.constant?_add hop.size (ih hops)

theorem knownWidth_nonneg : 0 ≤ knownWidth ops := by
  induction ops with
  | nil => exact Int.le_refl 0
  | cons op ops ih =>
    obtain ⟨hop, hops⟩ := List.forall_mem_cons.1 hops
    rw [knownWidth, if_pos hop.determined]
    exact Int.add_nonneg (Int.le_of_lt hop.positive) (ih hops)

/-- The elements of a product are all of its width. -/
theorem Measured.sequence (h : ofSequence ops = .ok op) :
    op.Measured ∧ ∀ o ∈ ops, o.width = op.width := by
  obtain rfl := ofSequence_eq_ok h
  cases ops with
  | nil => simp [ofSequence] at h
  | cons first rest =>
    have hfirst := hops first List.mem_cons_self
    have hsize : sequenceSize (first :: rest) = first.size := by
      simp [sequenceSize, hfirst.determined]
    have hwidth : sequenceWidth (first :: rest) = first.width := by
      simp [sequenceWidth, hfirst.determined]
    refine ⟨⟨by simp [isDetermined, anyDetermined, hfirst.determined], ?_, ?_, ?_⟩, fun o ho => ?_⟩
    · simpa [width, hwidth] using hfirst.positive
    · simpa [width, hwidth] using hfirst.small
    · simpa [width, hwidth, Operation.size, hsize] using hfirst.size
    · rw [width, hwidth]
      refine (hops o ho).width_eq hfirst ?_
      unfold ofSequence at h
      rw [List.find?_cons_of_pos hfirst.determined] at h
      simp only [List.isEmpty_cons, Bool.false_eq_true, if_false] at h
      split at h
      · simp at h
      · rename_i hnone
        simpa [(hops o ho).determined] using List.find?_eq_none.1 hnone o ho

theorem Measured.combination (h : ofCombination ops = .ok op) (hfits : fits64 op.width) :
    op.Measured := by
  obtain rfl := ofCombination_eq_ok h
  refine ⟨allDetermined_of_measured hops, ?_, hfits, constant?_totalSize_of_measured hops⟩
  cases ops with
  | nil => simp [ofCombination] at h
  | cons first rest =>
    obtain ⟨hfirst, hrest⟩ := List.forall_mem_cons.1 hops
    rw [width, knownWidth, if_pos hfirst.determined]
    exact Int.add_pos_of_pos_of_nonneg hfirst.positive (knownWidth_nonneg hrest)

end

theorem Measured.power {copies : Quantity} {m : Int64} (h : op.Measured)
    (hcopies : copies.constant? = some m) (hm : 1 ≤ m) (hfits : fits64 (power op copies l).width) :
    (power op copies l).Measured := by
  have hwidth : (Operation.power op copies l).width = m.toInt * op.width := by
    simp [width, hcopies]
  have hpos : 1 ≤ m.toInt := Int64.le_iff_toInt_le.1 hm
  refine ⟨h.determined, ?_, hfits, ?_⟩
  · rw [hwidth]
    exact Int.mul_pos (Int.lt_of_add_one_le hpos) h.positive
  · rw [hwidth, Int64.ofInt_mul, Int64.ofInt_toInt]
    exact Quantity.constant?_mul hcopies h.size

/-- The branches of a choice are of one width. -/
theorem Measured.choice {control : Qubits} (ha : a.Measured) (hb : b.Measured)
    (h : ofChoice control a b = .ok op) : op.Measured ∧ a.width = b.width := by
  obtain ⟨rfl, -, hsize⟩ := ofChoice_eq_ok h
  refine ⟨⟨ha.determined, ha.positive, ha.small, ha.size⟩, ha.width_eq hb ?_⟩
  exact Quantity.not_surelyDiffers_of_eq (Quantity.beq_iff.1 (hsize ha.determined))

@[simp] theorem width_withLocation {loc : Location} : (op.withLocation loc).width = op.width := by
  rcases op with ⟨_ | _, _⟩ | _ | _ | _ | _ | _ | _ <;> rfl

theorem Measured.withLocation (h : op.Measured) (loc : Location) :
    (op.withLocation loc).Measured := by
  obtain ⟨hdetermined, hpositive, hsmall, hsize⟩ := h
  rcases op with ⟨_ | _, _⟩ | _ | _ | _ | _ | _ | _ <;>
    exact ⟨hdetermined, hpositive, hsmall, hsize⟩

theorem WellSized.measured (h : op.WellSized) : op.Measured := by
  induction h with
  | gate => exact .gate
  | call hhidden hsize hc h => rw [ofCall_eq_ok h]; exact .call hhidden hsize hc
  | sequence _ h ih => exact (Measured.sequence ih h).1
  | combination _ h hfits ih => exact .combination ih h hfits
  | power _ hcopies hm hfits ih => exact ih.power hcopies hm hfits
  | adjoint _ ih | scaled _ _ ih => exact ⟨ih.determined, ih.positive, ih.small, ih.size⟩
  | choice _ _ h iha ihb => exact (Measured.choice iha ihb h).1
  | withLocation l _ ih => exact ih.withLocation l

end Operation

/-! ## Lowering -/

open Lowering

/-- Lowering succeeds on each target that is as wide as the operation. -/
def Operation.Lowers [Fingerprint] (op : Operation) : Prop :=
  ∀ (target : Qubits) (site : Option Location) (s : Scopes),
    target.size.constant? = some (Int64.ofInt op.width) →
    ∃ code s', Yields (lowerCall target site op) s code s'

namespace Lowering

variable {op base : Operation} {ops : List Operation} {target : Qubits} {l : Option Location}

/-- An element of a product as wide as the target is accepted. -/
theorem checkElement_eq_ok (h : op.Measured)
    (htarget : target.size.constant? = some (Int64.ofInt op.width)) :
    checkElement op target l = .ok () := by
  have hsize : op.size == target.size :=
    Quantity.beq_of_constant? h.size htarget h.size_ne_zero
  simp [checkElement, bne, hsize]

variable [Fingerprint]

theorem lowers_gate {g : Gate} : (Operation.elementary (.gate g) l).Lowers := by
  intro target site s _
  rw [lowerCall]
  split
  · exact ⟨_, _, yields_pure.2 ⟨rfl, rfl⟩⟩
  · simp only [yields_bind, yields_use, yields_pure]
    exact ⟨_, _, _, _, ⟨rfl, rfl⟩, rfl, rfl⟩

theorem lowers_call {d : Definition} {args : List ClassicalValue} (hhidden : d.hidden = none) :
    (Operation.elementary (.call d args) l).Lowers := by
  intro target site s _
  have hargs : resolveArgs d args target (site.or l) = .ok args := by rw [resolveArgs, hhidden]
  exact ⟨_, _, yields_lowerCall_call hargs⟩

theorem exists_lowerSequence {site : Option Location} {n : Int}
    (hops : ∀ op ∈ ops, op.Measured ∧ op.Lowers ∧ op.width = n)
    (htarget : target.size.constant? = some (Int64.ofInt n)) :
    ∀ s, ∃ code s', Yields (lowerSequence target site ops) s code s' := by
  induction ops with
  | nil => exact fun s => ⟨[], s, by rw [lowerSequence, yields_pure]; exact ⟨rfl, rfl⟩⟩
  | cons op ops ih =>
    intro s
    obtain ⟨⟨hmeasured, hlowers, rfl⟩, hops⟩ := List.forall_mem_cons.1 hops
    have hcheck := checkElement_eq_ok (l := site) hmeasured htarget
    obtain ⟨first, t, hfirst⟩ := hlowers target site s htarget
    obtain ⟨rest, s', hrest⟩ := ih hops t
    refine ⟨first ++ rest, s', ?_⟩
    simp only [lowerSequence, yields_bind, yields_ofFormation, yields_pure]
    exact ⟨(), s, ⟨hcheck, rfl⟩, first, t, hfirst, rest, s', hrest, rfl, rfl⟩

theorem lowers_sequence (hops : ∀ op ∈ ops, op.Measured ∧ op.Lowers ∧
    op.width = (Operation.sequence ops l).width) : (Operation.sequence ops l).Lowers := by
  intro target site s htarget
  rw [lowerCall]
  exact exists_lowerSequence hops htarget s

/-- The elements from the one at `start` on, where those before have used up `start` qubits. -/
theorem exists_lowerParts {n : Int} (site : Option Location) (remainder : Quantity)
    (hops : ∀ op ∈ ops, op.Measured ∧ op.Lowers)
    (htarget : target.size.constant? = some (Int64.ofInt n)) (hn : fits64 n) :
    ∀ {start : Quantity} {k : Int} (s : Scopes), start.constant? = some (Int64.ofInt k) → 0 ≤ k →
      k + Operation.knownWidth ops ≤ n →
      ∃ code s', Yields (lowerParts target site start (partSizes remainder ops) ops) s code s' := by
  induction ops with
  | nil => exact fun s _ _ _ => ⟨[], s, by rw [lowerParts, yields_pure]; exact ⟨rfl, rfl⟩⟩
  | cons op ops ih =>
    intro start k s hstart hk hle
    obtain ⟨⟨hmeasured, hlowers⟩, hops⟩ := List.forall_mem_cons.1 hops
    have hrest := Operation.knownWidth_nonneg fun op hop => (hops op hop).1
    rw [Operation.knownWidth, if_pos hmeasured.determined] at hle
    have hpos := hmeasured.positive
    have hstop : (start + op.size).constant? = some (Int64.ofInt (k + op.width)) := by
      rw [Int64.ofInt_add]
      exact Quantity.constant?_add hstart hmeasured.size
    have hspan := Quantity.constant?_span hstart hmeasured.size
    have hk64 : fits64 k := by rw [fits64_iff] at hn ⊢; omega
    have hend64 : fits64 (k + op.width) := by rw [fits64_iff] at hn ⊢; omega
    obtain ⟨part, hpart⟩ : ∃ part, target.slice start (start + op.size) = .ok part := by
      refine Qubits.exists_slice htarget (fun c hc => ?_) (fun e he => ?_) hspan ?_
      · obtain rfl := Option.some.inj (hstart.symm.trans hc)
        rw [Int64.le_iff_toInt_le, Int64.lt_iff_toInt_lt, toInt_ofInt hk64, toInt_ofInt hn]
        exact ⟨hk, by omega⟩
      · obtain rfl := Option.some.inj (hstop.symm.trans he)
        rw [Int64.le_iff_toInt_le, toInt_ofInt hend64, toInt_ofInt hn]
        omega
      · rw [Int64.lt_iff_toInt_lt, toInt_ofInt hmeasured.small]
        exact hpos
    obtain ⟨first, t, hfirst⟩ := hlowers part site s (constant?_size_slice hpart hspan)
    obtain ⟨rest, s', hrest⟩ := ih hops t hstop (by omega) (by omega)
    refine ⟨first ++ rest, s', ?_⟩
    simp only [partSizes, List.map_cons, hmeasured.determined, if_true, lowerParts, yields_bind,
      yields_ofFormation, yields_pure]
    exact ⟨part, s, ⟨hpart, rfl⟩, first, t, hfirst, rest, s', hrest, rfl, rfl⟩

theorem lowers_combination (hops : ∀ op ∈ ops, op.Measured ∧ op.Lowers)
    (hfits : fits64 (Operation.combination ops l).width) :
    (Operation.combination ops l).Lowers := by
  intro target site s htarget
  have hdetermined : ops.filter (fun op => !op.isDetermined) = [] :=
    List.filter_eq_nil_iff.2 fun op hop => by simp [(hops op hop).1.determined]
  have hstart : (Quantity.const 0).constant? = some (Int64.ofInt 0) := rfl
  have hfit : 0 + Operation.knownWidth ops ≤ (Operation.combination ops l).width := by
    rw [Int.zero_add]
    exact Int.le_refl _
  obtain ⟨code, s', hcode⟩ := exists_lowerParts (site.or l) (target.size - knownSize ops) hops
    htarget hfits s hstart (Int.le_refl 0) hfit
  refine ⟨code, s', ?_⟩
  simp only [lowerCall, splitSizes, hdetermined, yields_bind, yields_liftExcept]
  exact ⟨_, s, ⟨rfl, rfl⟩, hcode⟩

theorem lowers_power {copies : Quantity} (hbase : base.Measured) (h : base.Lowers) :
    (Operation.power base copies l).Lowers := by
  intro target site s htarget
  have hsize : copySize base copies l target (site.or l) = .ok base.size := by
    rw [copySize, if_pos hbase.determined]
  have hpos : (0 : Int64) < Int64.ofInt base.width := by
    rw [Int64.lt_iff_toInt_lt, toInt_ofInt hbase.small]
    exact hbase.positive
  obtain ⟨part, hpart⟩ := exists_copyPart
    (x := (powerIndex (.power base copies l)).name) htarget hbase.size hpos
  obtain ⟨body, t, hbody⟩ := h part (site.or l) (s.use target).2.enter
    (constant?_size_copyPart hpart hbase.size)
  exact ⟨_, _, yields_lowerCall_power hsize hpart hbody⟩

theorem lowers_adjoint (h : base.Lowers) : (Operation.adjoint base l).Lowers := by
  intro target site s htarget
  obtain ⟨body, t, hbody⟩ := h target (site.or l) (s.use target).2.enter htarget
  simp only [lowerCall, yields_bind, yields_use, yields_nested, yields_pure]
  exact ⟨_, _, _, _, ⟨rfl, rfl⟩, body, _, ⟨t, hbody, rfl⟩, rfl, rfl⟩

theorem lowers_scaled {c : Scalar} (h : base.Lowers) : (Operation.scaled c base l).Lowers := by
  intro target site s htarget
  rw [lowerCall]
  exact h target (site.or l) s htarget

theorem lowers_choice {control : Qubits} {a b : Operation} (ha : a.Lowers) (hb : b.Lowers)
    (hwidth : a.width = b.width) : (Operation.choice control a b l).Lowers := by
  intro target site s htarget
  have htarget : target.size.constant? = some (Int64.ofInt a.width) := htarget
  obtain ⟨whereFalse, t, hFalse⟩ :=
    hb target (site.or l) ((s.use control).2.use target).2 (by rw [htarget, hwidth])
  obtain ⟨whereTrue, s', hTrue⟩ := ha target (site.or l) t htarget
  simp only [lowerCall, yields_bind, yields_use, yields_ofFormation, yields_pure]
  exact ⟨_, s', _, _, ⟨rfl, rfl⟩, _, _, ⟨rfl, rfl⟩, whereFalse, t, hFalse, whereTrue, s', hTrue, _,
    s', ⟨rfl, rfl⟩, rfl, rfl⟩

/-- The position of an operation is that of its call if the call has none. -/
theorem lowerCall_withLocation {site : Option Location} {loc : Location} :
    lowerCall target site (op.withLocation loc) = lowerCall target (site.or (some loc)) op := by
  have hsite : ∀ own : Option Location, (site.or (some loc)).or own = site.or (some loc) := by
    intro own
    cases site <;> rfl
  rcases op with ⟨_ | _, own⟩ | _ | _ | _ | _ | _ | _ <;>
    simp only [Operation.withLocation, lowerCall, hsite, splitSizes, equalPart, powerIndex,
      Operation.render]

theorem lowers_withLocation {loc : Location} (h : op.Lowers) : (op.withLocation loc).Lowers := by
  intro target site s htarget
  rw [lowerCall_withLocation]
  exact h target (site.or (some loc)) s (by rw [htarget, Operation.width_withLocation])

end Lowering

/-- A well-sized operation is lowered on each target of its width. -/
theorem Operation.WellSized.lowers [Fingerprint] {op : Operation} (h : op.WellSized) :
    op.Lowers := by
  induction h with
  | gate => exact lowers_gate
  | call hhidden _ _ h => rw [ofCall_eq_ok h]; exact lowers_call hhidden
  | sequence hops h ih =>
    have hwidth := (Measured.sequence (fun o ho => (hops o ho).measured) h).2
    obtain rfl := ofSequence_eq_ok h
    exact lowers_sequence fun o ho => ⟨(hops o ho).measured, ih o ho, hwidth o ho⟩
  | combination hops h hfits ih =>
    obtain rfl := ofCombination_eq_ok h
    exact lowers_combination (fun o ho => ⟨(hops o ho).measured, ih o ho⟩) hfits
  | power hbase _ _ _ ih => exact lowers_power hbase.measured ih
  | adjoint _ ih => exact lowers_adjoint ih
  | scaled _ _ ih => exact lowers_scaled ih
  | choice ha hb h iha ihb =>
    have hwidth := (Measured.choice ha.measured hb.measured h).2
    obtain ⟨rfl, -⟩ := ofChoice_eq_ok h
    exact lowers_choice iha ihb hwidth
  | withLocation l _ ih => exact lowers_withLocation ih

/-- **A call of a well-sized operation on a target of constant size is lowered if it has been
    accepted**, whatever was declared before. -/
theorem exists_lowerStatement [Fingerprint] {op : Operation} {target : Qubits}
    {l : Option Location} {st : Statement} {s : Scopes} (hop : op.WellSized)
    (htarget : target.size.isConstant) (hst : Statement.ofCall op target l = .ok st) :
    ∃ code, (lowerStatement st s).1 = .ok code := by
  obtain ⟨n, hn⟩ : ∃ n, target.size.constant? = some n := Option.isSome_iff_exists.1 htarget
  obtain ⟨hcheck, rfl⟩ := ofCall_ok hst
  have hmeasured := hop.measured
  have hwidth : Int64.ofInt op.width = n := Quantity.eq_of_not_surelyDiffers hmeasured.size hn
    (Operation.checkTarget_ok hcheck hmeasured.determined)
  obtain ⟨code, s', hcode⟩ := hop.lowers target l s (by rw [hn, hwidth])
  rw [lowerStatement]
  exact ⟨code, hcode.1⟩

/-- Two layers on three qubits: a Hadamard gate on each, and then the inverse of a flip of the first
    qubit next to a swap of the others. -/
def layers : Operation :=
  .sequence [.power (.ofGate .h) (.const 3) none,
    .adjoint (.combination [.ofGate .x, .ofGate .swap] none) none] none

theorem wellSized_layers : layers.WellSized := by
  have hcopies : fits64 (Operation.ofPower (.ofGate .h) (.const 3)).width := by
    rw [fits64_iff]
    decide
  have hpair : (Operation.combination [.ofGate .x, .ofGate .swap] none).WellSized := by
    have hops : ∀ op ∈ [Operation.ofGate .x, .ofGate .swap], op.WellSized := by
      simp [Operation.WellSized.gate]
    refine .combination hops rfl ?_
    rw [fits64_iff]
    decide
  have hpower := Operation.WellSized.power (.gate .h) (show (Quantity.const 3).constant? = some 3
    from rfl) (by decide) hcopies
  exact .sequence (List.forall_mem_cons.2 ⟨hpower, List.forall_mem_singleton.2 hpair.adjoint⟩) rfl

/-- A register of three qubits. -/
def threeQubits : Qubits := .register ⟨"q", .const 3, .owner⟩

/-- The layers on the register: the elements of the product, the copies and the parts of the
    combination are all accepted. -/
theorem exists_lowerStatement_layers :
    layers.WellSized ∧ threeQubits.size.isConstant ∧
      Statement.ofCall layers threeQubits none = .ok (.call layers threeQubits none) ∧
      ∃ code, (lowerStatement (.call layers threeQubits none) Scopes.initial).1 = .ok code := by
  have htarget : threeQubits.size.isConstant := by rw [threeQubits, Qubits.size]; rfl
  have hst : Statement.ofCall layers threeQubits none = .ok (.call layers threeQubits none) := by
    simp only [Statement.ofCall, Operation.checkTarget, threeQubits, Qubits.size]
    rfl
  exact ⟨wellSized_layers, htarget, hst, exists_lowerStatement wellSized_layers htarget hst⟩

end QuantumLowering
