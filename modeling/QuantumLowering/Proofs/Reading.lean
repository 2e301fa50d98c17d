/-
  What an operation on given qubits means, and what lowered code unrolls to.

  * `Step`: what is done to single qubits; no loops, no declarations and no positions.
  * `Instruction.unrollAll`: the steps of lowered code, every loop run over its range and every
    description resolved.
  * `Operation.width`: the exact number of qubits of an operation of determined size.
  * `Operation.reading`: the steps of an operation on a list of qubits, read off its shape.
  * `Operation.Sized`: all sizes are constants, and none of them overflows.
  * `Operation.constant?_size`: then the size of the operation is its exact width.
-/
import QuantumLowering.Proofs.Resolution
import QuantumLowering.Proofs.Construction

namespace QuantumLowering

/-- Something done to single qubits. -/
inductive Step
  | gate (g : Gate) (target : List Qubit)
  /-- A call of a user operation, with the value of its hidden unknown if it has one. -/
  | call (definition : Definition) (hidden : Option Int64) (args : List ClassicalValue)
      (target : List Qubit)
  | beginControl (control : List Qubit) (condition : Bool)
  | endControl (control : List Qubit)
  | beginDagger
  | endDagger
  | encode (target : List Qubit) (value : Int64)
  | measure (target : List Qubit)
  | assign (name : ClassicalVariable) (value : ClassicalValue)
  | bind (name : QuantumVariable) (target : List Qubit)

/-! ## Unrolling -/

/-- The assignment with another value for `x`. -/
def withValue (ρ : String → Int64) (x : String) (v : Int64) : String → Int64 :=
  fun y => if y = x then v else ρ y

/-- The values of a loop index in order; there are none for an increment that is not positive. -/
def LoopRange.values (I : Interpretation) (ρ : String → Int64) (r : LoopRange) :
    Option (List Int64) :=
  let start := (r.start.value I ρ).toInt
  let bound := (r.stop.value I ρ).toInt + if r.inclusive then 1 else 0
  let step := (r.step.value I ρ).toInt
  if step ≤ 0 then none
  else some ((List.range ((bound - start + (step - 1)) / step).toNat).map fun i : Nat =>
    Int64.ofInt (start + i * step))

/-- The qubits that a description stands for under an assignment. -/
def Qubits.resolveAt (I : Interpretation) (ρ : String → Int64) (q : Qubits) :
    Option (List Qubit) :=
  q.resolve (valuesAt (Symbol.value I ρ))

/-- The steps of an action; a declaration has none. -/
def Action.unroll (I : Interpretation) (ρ : String → Int64) : Action → Option (List Step)
  | .declare _ => some []
  | .encode q value => (q.resolveAt I ρ).map fun xs => [.encode xs (value.value I ρ)]
  | .apply (.gate g) q => (q.resolveAt I ρ).map fun xs => [.gate g xs]
  | .apply (.call d args) q =>
    (q.resolveAt I ρ).map fun xs =>
      match d.hidden, args with
      | some _, .int value :: rest => [.call d (some (value.value I ρ)) rest xs]
      | _, _ => [.call d none args xs]
  | .beginControl q condition => (q.resolveAt I ρ).map fun xs => [.beginControl xs condition]
  | .endControl q => (q.resolveAt I ρ).map fun xs => [.endControl xs]
  | .beginDagger => some [.beginDagger]
  | .endDagger => some [.endDagger]
  | .measure q => (q.resolveAt I ρ).map fun xs => [.measure xs]
  | .assign x value => some [.assign x value]
  | .bind x q => (q.resolveAt I ρ).map fun xs => [.bind x xs]

namespace Instruction

mutual
/-- The steps of an instruction.  Only loops have bodies that are run a known number of times. -/
def unroll (I : Interpretation) (ρ : String → Int64) : Instruction → Option (List Step)
  | .act a _ => a.unroll I ρ
  | .loop x r body _ =>
    (r.values I ρ).bind fun vs =>
      (vs.mapM fun v => unrollAll I (withValue ρ x.name v) body).map List.flatten
  | .ifThen .. | .ifElse .. | .within .. => none

/-- The steps of a list of instructions. -/
def unrollAll (I : Interpretation) (ρ : String → Int64) : List Instruction → Option (List Step)
  | [] => some []
  | i :: is => (i.unroll I ρ).bind fun first => (unrollAll I ρ is).map (first ++ ·)
end

end Instruction

/-! ## Reading operations -/

namespace Operation

mutual
/-- The exact number of qubits of an operation of determined size. -/
def width : Operation → Int
  | .elementary (.gate g) _ => g.qubits
  | .elementary (.call d _) _ => (d.size.constant?.getD 0).toInt
  | .sequence es _ => sequenceWidth es
  | .combination es _ => knownWidth es
  | .power base copies _ => (copies.constant?.getD 0).toInt * base.width
  | .adjoint base _ | .scaled _ base _ => base.width
  | .choice _ a _ _ => a.width

/-- The width of a product: that of its first determined element. -/
def sequenceWidth : List Operation → Int
  | [] => 0
  | op :: ops => if op.isDetermined || !anyDetermined ops then op.width else sequenceWidth ops

/-- The sum of the determined widths. -/
def knownWidth : List Operation → Int
  | [] => 0
  | op :: ops => if op.isDetermined then op.width + knownWidth ops else knownWidth ops
end

/-- The width of an element of a combination; an undetermined one has what remains. -/
def widthOr (op : Operation) (remainder : Int) : Int :=
  if op.isDetermined then op.width else remainder

/-- The value of `x` for which a size `c + k * x` is `n`. -/
def hiddenValue (size : Quantity) (x : String) (n : Int) : Option Int :=
  (size.linearIn? x).bind fun (c, k) =>
    if k ≠ 0 ∧ (n - c.toInt) % k.toInt = 0 then some ((n - c.toInt) / k.toInt) else none

/-- Run number `i` of a list that falls into `n` equal runs. -/
def equalRun (qs : List Qubit) (n i : Nat) : List Qubit :=
  (qs.drop (qs.length / n * i)).take (qs.length / n)

mutual
/-- The steps of an operation on a list of qubits.  There are none if the qubits are more or
    less than the operation acts on. -/
def reading : Operation → List Qubit → Option (List Step)
  | .elementary (.gate g) _, qs =>
    if qs.length = g.qubits then some (if g.isIdentity then [] else [.gate g qs]) else none
  | .elementary (.call d args) l, qs =>
    match d.hidden with
    | none =>
      if (elementary (.call d args) l).width = qs.length then some [.call d none args qs] else none
    | some x => (hiddenValue d.size x qs.length).map fun v =>
      [.call d (some (Int64.ofInt v)) args qs]
  | .sequence es _, qs => readEach es qs
  | .combination es _, qs => readRuns (qs.length - knownWidth es) es qs
  | .power base copies _, qs =>
    (copies.constant?.bind natural?).bind fun n =>
      if n ∣ qs.length then
        ((List.range n).mapM fun i => base.reading (equalRun qs n i)).map List.flatten
      else none
  | .adjoint base _, qs =>
    (base.reading qs).map fun steps => [.beginDagger] ++ steps ++ [.endDagger]
  | .scaled _ base _, qs => base.reading qs
  | .choice control a b _, qs =>
    (control.resolve Quantity.constant?).bind fun cs =>
      (b.reading qs).bind fun whereFalse => (a.reading qs).map fun whereTrue =>
        [.beginControl cs false] ++ whereFalse ++ [.endControl cs] ++
          ([.beginControl cs true] ++ whereTrue ++ [.endControl cs])

/-- The elements of a product one after another on the same qubits. -/
def readEach : List Operation → List Qubit → Option (List Step)
  | [], _ => some []
  | op :: ops, qs => (op.reading qs).bind fun first => (readEach ops qs).map (first ++ ·)

/-- The elements of a combination on consecutive runs, which have to use up the qubits. -/
def readRuns (remainder : Int) : List Operation → List Qubit → Option (List Step)
  | [], qs => if qs.isEmpty then some [] else none
  | op :: ops, qs =>
    let n := (op.widthOr remainder).toNat
    if n ≤ qs.length then
      (op.reading (qs.take n)).bind fun first =>
        (readRuns remainder ops (qs.drop n)).map (first ++ ·)
    else none
end

/-- The runs of all elements of a combination together. -/
def runsWidth (remainder : Int) : List Operation → Int
  | [] => 0
  | op :: ops => op.widthOr remainder + runsWidth remainder ops

/-! ## Sizes without overflow -/

mutual
/-- Whether the sizes in an operation on `n` qubits are constants, hidden unknowns can be solved
    for, there is at least one copy, and no size overflows. -/
def Sized : Operation → Int → Prop
  | .elementary (.gate _) _, _ => True
  | .elementary (.call d _) _, n =>
    match d.hidden with
    | none => d.size.isConstant
    | some x => ∃ c k, d.size.linearIn? x = some (c, k) ∧ k ≠ 0 ∧ fits64 (n - c.toInt)
  | .sequence es _, n => AllSized es n
  | .combination es _, n =>
    fits64 (knownWidth es) ∧ fits64 (n - knownWidth es) ∧ PartsSized (n - knownWidth es) es
  | .power base copies _, n => ∃ m, copies.constant? = some m ∧ 0 < m ∧
    (base.isDetermined → fits64 (m.toInt * base.width)) ∧ base.Sized (base.widthOr (n / m.toInt))
  | .adjoint base _, n | .scaled _ base _, n => base.Sized n
  | .choice control a b _, n =>
    (control.resolve Quantity.constant?).isSome ∧ a.Sized n ∧ b.Sized n

/-- `Sized` of every element of a product. -/
def AllSized : List Operation → Int → Prop
  | [], _ => True
  | op :: ops, n => op.Sized n ∧ AllSized ops n

/-- `Sized` of every element of a combination, on as many qubits as it gets. -/
def PartsSized (remainder : Int) : List Operation → Prop
  | [] => True
  | op :: ops => op.Sized (op.widthOr remainder) ∧ PartsSized remainder ops
end

/-- A size that is solved for its unknown is not determined. -/
theorem mentions_of_linearIn? {a : Quantity} {x : String} {c k : Int64}
    (h : a.linearIn? x = some (c, k)) : a.mentions x := by
  have hterms := Quantity.linearIn?_eq_some h
  obtain ⟨⟨ts⟩, l⟩ := a
  rcases hterms with ⟨-, rfl⟩ | rfl <;>
    simp [Quantity.mentions, Polynomial.mentions, Symbol.polyMentions, Symbol.termsMention,
      Symbol.factorsMention, Symbol.mentions, PowerProduct.one]

mutual
/-- The size of an operation of determined size is its exact width. -/
theorem constant?_size : ∀ {op : Operation} {n : Int}, op.Sized n → op.isDetermined →
    op.size.constant? = some (Int64.ofInt op.width) ∧ fits64 op.width
  | .elementary (.gate g) _, _, _, _ => by
    have hg : g.qubits ≤ 2 := by cases g <;> simp [Gate.qubits]
    exact ⟨Quantity.constant?_const, by rw [width, fits64_iff]; omega⟩
  | .elementary (.call d args) l, n, h, hd => by
    cases hx : d.hidden with
    | none =>
      simp only [Sized, hx, Quantity.isConstant, Polynomial.isConstant] at h
      obtain ⟨c, hc⟩ := Option.isSome_iff_exists.1 h
      have hc : d.size.constant? = some c := hc
      simp [size, width, hc, fits64_toInt]
    | some x =>
      simp only [Sized, hx] at h
      obtain ⟨c, k, hlin, -⟩ := h
      simp [isDetermined, callIsDetermined, hx, mentions_of_linearIn? hlin] at hd
  | .sequence es _, n, h, hd => constant?_sequenceSize h hd
  | .combination es _, n, h, hd => ⟨constant?_totalSize h.2.2 hd, h.1⟩
  | .power base copies l, n, h, hd => by
    obtain ⟨m, hm, -, hfit, hbase⟩ := h
    have hd : base.isDetermined := hd
    have hwidth : (power base copies l).width = m.toInt * base.width := by simp [width, hm]
    rw [hwidth, Int64.ofInt_mul, Int64.ofInt_toInt]
    exact ⟨Quantity.constant?_mul hm (constant?_size hbase hd).1, hfit hd⟩
  | .adjoint base _, n, h, hd | .scaled _ base _, n, h, hd => by
    have h : base.Sized n := h
    have hbase := constant?_size h hd
    exact hbase
  | .choice _ a _ _, n, h, hd => by
    have h : a.Sized n := h.2.1
    have ha := constant?_size h hd
    exact ha

theorem constant?_sequenceSize : ∀ {ops : List Operation} {n : Int}, AllSized ops n →
    anyDetermined ops →
    (sequenceSize ops).constant? = some (Int64.ofInt (sequenceWidth ops)) ∧
      fits64 (sequenceWidth ops)
  | op :: ops, n, h, hd => by
    by_cases hop : op.isDetermined
    · simpa [sequenceSize, sequenceWidth, hop] using constant?_size h.1 hop
    · have hd : anyDetermined ops := by simpa [anyDetermined, hop] using hd
      simpa [sequenceSize, sequenceWidth, hop, hd] using constant?_sequenceSize h.2 hd

theorem constant?_totalSize : ∀ {ops : List Operation} {r : Int}, PartsSized r ops →
    allDetermined ops → (totalSize ops).constant? = some (Int64.ofInt (knownWidth ops))
  | [], _, _, _ => rfl
  | op :: ops, _, h, hd => by
    simp only [allDetermined, Bool.and_eq_true] at hd
    rw [totalSize, knownWidth, if_pos hd.1, Int64.ofInt_add]
    exact Quantity.constant?_add (constant?_size h.1 hd.1).1 (constant?_totalSize h.2 hd.2)
end

/-- The determined elements of a combination together. -/
theorem constant?_knownSize {ops : List Operation} {r : Int} (h : PartsSized r ops) :
    (Lowering.knownSize ops).constant? = some (Int64.ofInt (knownWidth ops)) := by
  induction ops with
  | nil => rfl
  | cons op ops ih =>
    rw [Lowering.knownSize, knownWidth]
    split
    · rename_i hd
      rw [Int64.ofInt_add]
      exact Quantity.constant?_add (constant?_size h.1 hd).1 (ih h.2)
    · exact ih h.2

end Operation

end QuantumLowering
