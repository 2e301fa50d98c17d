/-
  Where the errors of lowering point.

  * `LoweringError.refusesAddress`: the error is about bounds or about an index.
  * `Operation.sizePositions`: the positions of the sizes that are written in an operation.
  * `LoweringError.PointsTo`: the error points at the call, or, if it refuses an address, at one of
    several other positions or nowhere.
  * `Lowering.FailsWith P`: all errors of a computation satisfy `P`.  One rule for each way to build
    a computation.
  * `Lowering.lowerCall_failsWith`: what the errors of an operation point at, on every target, by
    induction on the operation.
  * `Lowering.location_of_error`: this for the calls of a program.
-/
import QuantumLowering.Proofs.Construction
import QuantumLowering.Proofs.Failures
import QuantumLowering.Proofs.Inversion
import QuantumLowering.Proofs.Slices
import QuantumLowering.TextHash

namespace QuantumLowering

/-- Whether bounds or an index are wrong. -/
def FormationFault.isAddress : FormationFault → Bool
  | invalidSlice _ | indexOutOfBounds .. => true
  | _ => false

/-- Whether the error is about bounds or an index. -/
def LoweringError.refusesAddress : LoweringError → Bool
  | formation e => e.fault.isAddress
  | _ => false

/-! ## Positions of sizes -/

/-- There is no position, or it is one of `ps`. -/
def Among (ps : List Location) (l : Option Location) : Prop := ∀ p, l = some p → p ∈ ps

variable {ps qs : List Location} {l m : Option Location}

theorem Among.none : Among ps none := fun _ h => nomatch h

theorem Among.mono (h : Among ps l) (hsub : ps ⊆ qs) : Among qs l := fun p hp => hsub (h p hp)

theorem Among.or (hl : Among ps l) (hm : Among ps m) : Among ps (l.or m) := by
  cases l with
  | none => exact hm
  | some p => exact hl

theorem Among.toList : Among l.toList l := by
  rintro p rfl
  exact List.mem_singleton_self p

namespace Operation

mutual
/-- The positions of the declared sizes and the numbers of copies in an operation. -/
def sizePositions : Operation → List Location
  | .elementary (.gate _) _ => []
  | .elementary (.call d _) _ => d.size.location.toList
  | .sequence es _ | .combination es _ => allSizePositions es
  | .power base copies _ => copies.location.toList ++ base.sizePositions
  | .adjoint base _ | .scaled _ base _ => base.sizePositions
  | .choice _ a b _ => a.sizePositions ++ b.sizePositions

/-- `sizePositions` of every operation. -/
def allSizePositions : List Operation → List Location
  | [] => []
  | op :: ops => op.sizePositions ++ allSizePositions ops
end

mutual
/-- The size of an operation has its position from one of the sizes in it. -/
theorem among_size : ∀ op : Operation, Among op.sizePositions op.size.location
  | .elementary (.gate _) _ => by
    rw [size]
    exact .none
  | .elementary (.call _ _) _ => by
    rw [size, sizePositions]
    exact .toList
  | .sequence es _ => by
    rw [size, sizePositions]
    exact among_sequenceSize es
  | .combination es _ => by
    rw [size, sizePositions]
    exact among_totalSize es
  | .power base copies _ => by
    rw [size, sizePositions]
    exact .or (Among.toList.mono (List.subset_append_left ..))
      ((among_size base).mono (List.subset_append_right ..))
  | .adjoint base _ => by
    rw [size, sizePositions]
    exact among_size base
  | .scaled _ base _ => by
    rw [size, sizePositions]
    exact among_size base
  | .choice _ a _ _ => by
    rw [size, sizePositions]
    exact (among_size a).mono (List.subset_append_left ..)

theorem among_sequenceSize : ∀ es : List Operation,
    Among (allSizePositions es) (sequenceSize es).location
  | [] => by
    rw [sequenceSize]
    exact .none
  | op :: ops => by
    rw [sequenceSize, allSizePositions]
    split
    · exact (among_size op).mono (List.subset_append_left ..)
    · exact (among_sequenceSize ops).mono (List.subset_append_right ..)

theorem among_totalSize : ∀ es : List Operation,
    Among (allSizePositions es) (totalSize es).location
  | [] => by
    rw [totalSize]
    exact .none
  | op :: ops => by
    rw [totalSize, allSizePositions]
    exact .or ((among_size op).mono (List.subset_append_left ..))
      ((among_totalSize ops).mono (List.subset_append_right ..))
end

end Operation

namespace Qubits

variable {q part : Qubits} {start stop index : Quantity} {e : FormationError}

theorem element_error (h : q.element index = .error e) :
    e.fault.isAddress ∧ e.location = index.location := by
  unfold element at h
  split at h
  · simp at h
  · split at h <;> split at h
    · obtain rfl := Except.error.inj h
      exact ⟨rfl, rfl⟩
    · simp at h
    · obtain rfl := Except.error.inj h
      exact ⟨rfl, rfl⟩
    · simp at h

/-- A refused slice points at one of its bounds, if they have a position. -/
theorem slice_error (hstart : Among ps start.location) (hstop : Among ps stop.location)
    (h : q.slice start stop = .error e) : e.fault.isAddress ∧ Among ps e.location := by
  have hinvalid {fault : SliceFault} (h : (⟨.invalidSlice fault, start.location.or stop.location⟩ :
      FormationError) = e) : e.fault.isAddress ∧ Among ps e.location := by
    rw [← h]
    exact ⟨rfl, hstart.or hstop⟩
  simp only [slice, sliceWith, Bool.false_eq_true, if_false] at h
  split at h
  · exact hinvalid (Except.error.inj h)
  split at h
  · exact hinvalid (Except.error.inj h)
  split at h
  · exact hinvalid (Except.error.inj h)
  split at h
  · obtain ⟨haddress, hlocation⟩ := element_error h
    rw [hlocation]
    exact ⟨haddress, hstart⟩
  split at h
  · exact hinvalid (Except.error.inj h)
  · simp at h

/-- The size of a slice has its position from the bounds. -/
theorem among_size_slice (hstart : Among ps start.location) (hstop : Among ps stop.location)
    (h : q.slice start stop = .ok part) : Among ps part.size.location := by
  obtain ⟨-, -, ⟨-, h⟩ | ⟨-, -, rfl⟩⟩ := slice_ok h
  · obtain ⟨rfl, -⟩ := element_ok h
    rw [size]
    exact .none
  · rw [size]
    exact (hstop.or hstart).or .none

end Qubits

/-! ## Computations and their errors -/

/-- The error points at `site`.  If it refuses an address, it points at one of `ps` instead, or
    nowhere. -/
structure LoweringError.PointsTo (site : Location) (ps : List Location) (e : LoweringError) :
    Prop where
  ofCheck : e.refusesAddress = false → e.location = some site
  ofAddress : e.refusesAddress → Among ps e.location

namespace Lowering

variable {α β : Type} {P : LoweringError → Prop}

/-- All errors of a computation satisfy `P`. -/
def FailsWith (P : LoweringError → Prop) (x : Lowering α) : Prop :=
  ∀ s e, (x s).1 = .error e → P e

namespace FailsWith

theorem pure {a : α} : FailsWith P (Pure.pure a : Lowering α) := fun _ _ h => nomatch h

theorem use {q : Qubits} : FailsWith P (use q) := fun _ _ h => nomatch h

theorem nested {x : Lowering α} (h : FailsWith P x) : FailsWith P (nested x) := fun s => h s.enter

theorem bind {x : Lowering α} {f : α → Lowering β} (hx : FailsWith P x)
    (hf : ∀ a, FailsWith P (f a)) : FailsWith P (x >>= f) := by
  intro s e h
  rcases hxs : x s with ⟨e' | a, t⟩
  · rw [bind_of_error hxs] at h
    obtain rfl := Except.error.inj h
    exact hx s e' (by rw [hxs])
  · rw [bind_of_ok hxs] at h
    exact hf a t e h

/-- A check, and what is done with its result. -/
theorem lift {x : Except LoweringError α} {f : α → Lowering β} (hx : ∀ e, x = .error e → P e)
    (hf : ∀ a, x = .ok a → FailsWith P (f a)) : FailsWith P (liftExcept x >>= f) := by
  cases x with
  | error e =>
    intro s e' h
    exact hx e' (congrArg Except.error (Except.error.inj h))
  | ok a => exact hf a rfl

/-- A construction, and what is done with its result. -/
theorem construct {x : Except FormationError α} {f : α → Lowering β}
    (hx : ∀ e, x = .error e → P (.formation e)) (hf : ∀ a, x = .ok a → FailsWith P (f a)) :
    FailsWith P (ofFormation x >>= f) := by
  cases x with
  | error e =>
    intro s e' h
    rw [← Except.error.inj h]
    exact hx e rfl
  | ok a => exact hf a rfl

end FailsWith

/-! ## Checks -/

variable {target part : Qubits} {site : Location} {op base : Operation} {ops : List Operation}
  {start stop partSize copies index : Quantity} {sizes : List Quantity} {e : LoweringError}

open LoweringError (PointsTo)

theorem pointsTo_of_check (hcheck : e.refusesAddress = false) (h : e.location = some site) :
    PointsTo site ps e :=
  ⟨fun _ => h, fun haddress => absurd (haddress.symm.trans hcheck) (by decide)⟩

theorem pointsTo_of_isAddress {e : FormationError} (haddress : e.fault.isAddress)
    (h : Among ps e.location) : PointsTo site ps (.formation e) :=
  ⟨fun hcheck => absurd (haddress.symm.trans hcheck) (by decide), fun _ => h⟩

theorem checkElement_error {e : FormationError}
    (h : checkElement op target (some site) = .error e) : PointsTo site ps (.formation e) := by
  unfold checkElement at h
  split at h
  · obtain rfl := Except.error.inj h
    exact pointsTo_of_check rfl rfl
  · simp at h

theorem resolveArgs_error {d : Definition} {args : List ClassicalValue}
    (h : resolveArgs d args target (some site) = .error e) : PointsTo site ps e := by
  unfold resolveArgs at h
  split at h
  · simp at h
  · split at h
    · simp at h
    · obtain rfl := Except.error.inj h
      exact pointsTo_of_check rfl rfl

theorem splitSizes_error (h : splitSizes op ops target (some site) = .error e) :
    PointsTo site ps e := by
  unfold splitSizes at h
  split at h
  · obtain rfl := Except.error.inj h
    exact pointsTo_of_check rfl rfl
  · simp at h

theorem copySize_error (h : copySize base copies l target (some site) = .error e) :
    PointsTo site ps e := by
  unfold copySize equalPart at h
  split at h
  · simp at h
  · dsimp only at h
    split at h
    · simp at h
    · split at h
      · obtain rfl := Except.error.inj h
        exact pointsTo_of_check rfl rfl
      · simp at h

/-- A slice that is refused points at a position that one of its bounds has. -/
theorem slice_error {e : FormationError} (hstart : Among ps start.location)
    (hstop : Among ps stop.location) (h : target.slice start stop = .error e) :
    PointsTo site ps (.formation e) :=
  have ⟨haddress, hlocation⟩ := Qubits.slice_error hstart hstop h
  pointsTo_of_isAddress haddress hlocation

theorem copyPart_error {e : FormationError} (hsize : Among ps partSize.location)
    (hindex : Among ps index.location) (h : copyPart target partSize index = .error e) :
    PointsTo site ps (.formation e) := by
  unfold copyPart at h
  split at h
  · obtain ⟨haddress, hlocation⟩ := Qubits.element_error h
    exact pointsTo_of_isAddress haddress (by rwa [hlocation])
  · exact slice_error (hsize.or hindex) ((hsize.or hindex).or hsize) h

/-! ## Sizes and parts -/

theorem among_size_copyPart (hsize : Among ps partSize.location) (hindex : Among ps index.location)
    (h : copyPart target partSize index = .ok part) : Among ps part.size.location := by
  rcases copyPart_ok h with ⟨-, h⟩ | ⟨-, h⟩
  · obtain ⟨rfl, -⟩ := Qubits.element_ok h
    rw [Qubits.size]
    exact .none
  · exact Qubits.among_size_slice (hsize.or hindex) ((hsize.or hindex).or hsize) h

theorem among_copySize (hbase : base.sizePositions ⊆ ps) (hcopies : Among ps copies.location)
    (htarget : Among ps target.size.location)
    (h : copySize base copies l target (some site) = .ok partSize) :
    Among ps partSize.location := by
  unfold copySize equalPart at h
  split at h
  · obtain rfl := Except.ok.inj h
    exact (base.among_size).mono hbase
  · dsimp only at h
    split at h
    · rename_i hdiv
      obtain rfl := Except.ok.inj h
      obtain ⟨p, -, rfl⟩ := Option.map_eq_some_iff.1 hdiv
      exact htarget.or hcopies
    · split at h
      · simp at h
      · obtain rfl := Except.ok.inj h
        exact htarget.or hcopies

theorem among_knownSize (h : Operation.allSizePositions ops ⊆ ps) :
    Among ps (knownSize ops).location := by
  induction ops with
  | nil => exact .none
  | cons op ops ih =>
    obtain ⟨hop, hops⟩ := List.append_subset.1 h
    rw [knownSize]
    split
    · exact ((op.among_size).mono hop).or (ih hops)
    · exact ih hops

theorem sizePositions_subset (h : op ∈ ops) :
    op.sizePositions ⊆ Operation.allSizePositions ops := by
  induction ops with
  | nil => exact absurd h List.not_mem_nil
  | cons o ops ih =>
    rw [Operation.allSizePositions]
    rcases List.mem_cons.1 h with rfl | h
    · exact List.subset_append_left ..
    · exact List.Subset.trans (ih h) (List.subset_append_right ..)

theorem among_splitSizes (hops : Operation.allSizePositions ops ⊆ ps)
    (htarget : Among ps target.size.location)
    (h : splitSizes op ops target (some site) = .ok sizes) :
    ∀ size ∈ sizes, Among ps size.location := by
  obtain ⟨rfl, -⟩ := splitSizes_eq_ok h
  intro size hsize
  obtain ⟨o, ho, rfl⟩ := List.mem_map.1 hsize
  split
  · exact (o.among_size).mono (List.Subset.trans (sizePositions_subset ho) hops)
  · exact htarget.or (among_knownSize hops)

/-- The two branches of a quantum choice are as many as its control needs. -/
theorem linearize_branches {control : Qubits} {a b : List Instruction} {l : Option Location} :
    ∃ code, Mux.linearize [control] [a, b] l = .ok code := ⟨_, rfl⟩

/-! ## Operations -/

-- The position of the call reaches every part, since it wins over the positions of the operations.
-- The targets of the parts change, but their sizes are made of those in `ps`.
mutual
theorem lowerCall_failsWith [Fingerprint] : ∀ (op : Operation) (target : Qubits),
    op.sizePositions ⊆ ps → Among ps target.size.location →
      FailsWith (PointsTo site ps) (lowerCall target (some site) op)
  | .elementary (.gate g) own, target, _, _ => by
    rw [lowerCall]
    split
    · exact .pure
    · exact .bind .use fun _ => .pure
  | .elementary (.call d args) own, target, _, _ => by
    rw [lowerCall]
    exact .lift (fun _ => resolveArgs_error) fun _ _ => .bind .use fun _ => .pure
  | .sequence es own, target, hops, htarget => by
    rw [lowerCall]
    rw [Operation.sizePositions] at hops
    exact lowerSequence_failsWith es target hops htarget
  | .combination es own, target, hops, htarget => by
    rw [lowerCall]
    rw [Operation.sizePositions] at hops
    refine .lift (fun _ => splitSizes_error) fun sizes hsizes => ?_
    exact lowerParts_failsWith es target _ sizes hops .none (among_splitSizes hops htarget hsizes)
  | .power base copies own, target, hop, htarget => by
    rw [lowerCall_power_eq]
    obtain ⟨hcopies, hbase⟩ := List.append_subset.1 hop
    have hcopies : Among ps copies.location := Among.toList.mono hcopies
    refine .lift (fun _ => copySize_error) fun partSize hpart => ?_
    have hsize := among_copySize hbase hcopies htarget hpart
    refine .bind .use fun _ => .bind (.nested ?_) fun _ => .pure
    -- the index of the loop has no position
    refine .construct (fun _ => copyPart_error hsize .none) fun part hpart => ?_
    exact lowerCall_failsWith base part hbase (among_size_copyPart hsize .none hpart)
  | .adjoint base own, target, hop, htarget => by
    rw [lowerCall]
    rw [Operation.sizePositions] at hop
    exact .bind .use fun _ => .bind (.nested (lowerCall_failsWith base target hop htarget))
      fun _ => .pure
  | .scaled c base own, target, hop, htarget => by
    rw [lowerCall]
    rw [Operation.sizePositions] at hop
    exact lowerCall_failsWith base target hop htarget
  | .choice control onTrue onFalse own, target, hop, htarget => by
    rw [lowerCall]
    obtain ⟨htrue, hfalse⟩ := List.append_subset.1 hop
    refine .bind .use fun _ => .bind .use fun _ => ?_
    refine .bind (lowerCall_failsWith onFalse target hfalse htarget) fun whereFalse => ?_
    refine .bind (lowerCall_failsWith onTrue target htrue htarget) fun whereTrue => ?_
    refine .construct (fun e h => ?_) fun _ _ => .pure
    obtain ⟨code, hcode⟩ := linearize_branches
    exact nomatch hcode.symm.trans h

theorem lowerSequence_failsWith [Fingerprint] : ∀ (ops : List Operation) (target : Qubits),
    Operation.allSizePositions ops ⊆ ps → Among ps target.size.location →
      FailsWith (PointsTo site ps) (lowerSequence target (some site) ops)
  | [], _, _, _ => by
    rw [lowerSequence]
    exact .pure
  | op :: ops, target, hops, htarget => by
    rw [lowerSequence]
    obtain ⟨hop, hops⟩ := List.append_subset.1 hops
    refine .construct (fun _ => checkElement_error) fun _ _ => ?_
    refine .bind (lowerCall_failsWith op target hop htarget) fun _ => ?_
    exact .bind (lowerSequence_failsWith ops target hops htarget) fun _ => .pure

theorem lowerParts_failsWith [Fingerprint] : ∀ (ops : List Operation) (target : Qubits)
    (start : Quantity) (sizes : List Quantity), Operation.allSizePositions ops ⊆ ps →
      Among ps start.location →
      (∀ size ∈ sizes, Among ps size.location) →
        FailsWith (PointsTo site ps) (lowerParts target (some site) start sizes ops)
  | [], _, _, _, _, _, _ => by
    rw [lowerParts]
    exact .pure
  | op :: ops, _, _, [], _, _, _ => by
    rw [lowerParts]
    exact .pure
  | op :: ops, target, start, size :: sizes, hops, hstart, hsizes => by
    rw [lowerParts]
    obtain ⟨hop, hops⟩ := List.append_subset.1 hops
    obtain ⟨hsize, hsizes⟩ := List.forall_mem_cons.1 hsizes
    have hstop : Among ps (start + size).location := hstart.or hsize
    refine .construct (fun _ => slice_error hstart hstop) fun part hpart => ?_
    have hsize' := Qubits.among_size_slice hstart hstop hpart
    refine .bind (lowerCall_failsWith op part hop hsize') fun _ => ?_
    exact .bind (lowerParts_failsWith ops target _ sizes hops hstop hsizes) fun _ => .pure
end

/-- **A failed call points at itself**, unless an address is refused: such an error has the position
    of a size in the operation or of the size of the target, or none. -/
theorem location_of_error [Fingerprint] {s s' : Scopes}
    (h : lowerStatement (.call op target (some site)) s = (.error e, s')) :
    (e.refusesAddress = false → e.location = some site) ∧
      (e.refusesAddress →
        ∀ l, e.location = some l → l ∈ op.sizePositions ++ target.size.location.toList) := by
  have herror : (lowerCall target (some site) op s).1 = .error e := by
    rw [lowerStatement] at h
    rw [h]
  have hpoints : PointsTo site (op.sizePositions ++ target.size.location.toList) e :=
    lowerCall_failsWith op target (List.subset_append_left ..)
      (Among.toList.mono (List.subset_append_right ..)) s e herror
  exact ⟨hpoints.ofCheck, hpoints.ofAddress⟩

/-- A position in a source file. -/
def thirdLine : Location := ⟨some "main", 3, 5⟩

/-- Two operations that would both take their size from the target. -/
theorem location_of_error_ambiguous :
    ∃ e s', lowerStatement (.call (.combination [.elementary (.call anySize []) none,
        .elementary (.call anySize []) none] none) fourQubits (some thirdLine)) Scopes.initial =
        (.error e, s') ∧
      e.refusesAddress = false ∧ e.location = some thirdLine := by
  have hfails : lowerStatement (.call (.combination [.elementary (.call anySize []) none,
      .elementary (.call anySize []) none] none) fourQubits (some thirdLine)) Scopes.initial =
      (.error (.ambiguousSplit _ (some thirdLine)), Scopes.initial) := rfl
  exact ⟨_, _, hfails, rfl, (location_of_error hfails).1 rfl⟩

/-- A gate, and an operation that takes what is left of the target. -/
def gateThenRest : List Operation := [.ofGate .h, .elementary (.call anySize []) none]

theorem size_firstOfFour : firstOfFour.size = .const 1 := by rw [firstOfFour, Qubits.size]

theorem splitSizes_gateThenRest {l : Option Location} :
    splitSizes (.combination gateThenRest none) gateThenRest firstOfFour l =
      .ok [.const 1, .const 1 - (.const 1 + .const 0)] := by
  have hgate : (Operation.ofGate .h).size = .const 1 := Operation.size_ofGate
  have hsizes : splitSizes (.combination gateThenRest none) gateThenRest firstOfFour l =
      .ok [(Operation.ofGate .h).size,
        firstOfFour.size - ((Operation.ofGate .h).size + .const 0)] := rfl
  rwa [hgate, size_firstOfFour] at hsizes

/-- The gate leaves no qubit of one, so a slice is refused, and the error has no position. -/
theorem location_of_error_emptySlice :
    ∃ call e s', Statement.ofCall (.combination gateThenRest none) firstOfFour (some thirdLine) =
        .ok call ∧
      lowerStatement call Scopes.initial = (.error e, s') ∧ e.location = none := by
  have hpart : firstOfFour.slice (.const 0) (.const 0 + .const 1) =
      .ok (.single firstOfFour (.const 0)) := by
    change firstOfFour.element (.const 0) = _
    simp only [Qubits.element, size_firstOfFour]
    rfl
  have hcall : lowerCall firstOfFour (some thirdLine) (.combination gateThenRest none)
      Scopes.initial = lowerParts firstOfFour (some thirdLine) (.const 0)
        [.const 1, .const 1 - (.const 1 + .const 0)] gateThenRest Scopes.initial := by
    rw [lowerCall, splitSizes_gateThenRest]
    rfl
  obtain ⟨fault, s', hfails⟩ : ∃ fault s', lowerStatement
      (.call (.combination gateThenRest none) firstOfFour (some thirdLine)) Scopes.initial =
        (.error (.formation ⟨.invalidSlice fault, none⟩), s') := by
    rw [lowerStatement, hcall, gateThenRest, lowerParts, hpart]
    exact ⟨_, _, rfl⟩
  exact ⟨_, _, s', rfl, hfails, rfl⟩

end Lowering

end QuantumLowering
