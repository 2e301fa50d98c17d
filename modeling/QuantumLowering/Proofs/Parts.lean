/-
  Operations and the parts of a target they are lowered on.

  * `Qubits.Denotes`: a description that stands for as many qubits as its constant size says.
  * `Operation.Onto`: the operation acts on exactly the qubits that the target stands for, all
    sizes being constants.  This is what lowering keeps from an operation to its parts.
  * `Lowering.onto_copyPart`: the part for one copy of a tensor power.
  * `Lowering.onto_part`: the part for one element of a combination.
  * `Lowering.onto_branches`: the branches of a quantum choice.
-/
import QuantumLowering.Proofs.IndexNames
import QuantumLowering.Proofs.Inversion
import QuantumLowering.Proofs.Reading

namespace QuantumLowering

variable {I : Interpretation} {ρ : String → Int64}

/-- Other unknowns can take any values. -/
theorem Qubits.Settled.withValue {q : Qubits} {qs : List Qubit} {xs : List String} {x : String}
    (h : q.Settled I ρ xs qs) (v : Int64) (hx : x ∉ xs) :
    q.Settled I (withValue ρ x v) xs qs := by
  intro ρ' hρ
  refine h ρ' fun y hy => ?_
  have hne : y ≠ x := ne_of_mem_of_not_mem hy hx
  rw [hρ y hy, QuantumLowering.withValue, if_neg hne]

/-! ## Operations on their qubits -/

/-- A description of constant size that stands for as many qubits, whatever the values of the
    unknowns are that are not among `xs`. -/
structure Qubits.Denotes (I : Interpretation) (ρ : String → Int64) (xs : List String)
    (q : Qubits) (qs : List Qubit) : Prop where
  size : q.size.constant? = some (Int64.ofNat qs.length)
  small : fits64 qs.length
  settled : q.Settled I ρ xs qs

/-- An operation whose sizes are constants and a target that stands for exactly as many qubits
    as the operation acts on.  Of the unknowns only the indices `xs` of the loops around the
    operation matter for the target, and no loop inside of the operation takes their names. -/
structure Operation.Onto [Fingerprint] (I : Interpretation) (ρ : String → Int64)
    (xs : List String) (op : Operation) (target : Qubits) (qs : List Qubit) : Prop where
  agree : op.branchesAgree
  sized : op.Sized qs.length
  width : op.isDetermined → op.width = qs.length
  apart : op.Apart xs
  target : target.Denotes I ρ xs qs

namespace Lowering

variable {op base : Operation} {target part : Qubits} {qs : List Qubit} {xs : List String}

/-! ### Widths -/

/-- Equal sizes are equal widths. -/
theorem eq_of_size {op : Operation} {size : Quantity} {n z : Int} (hop : op.Sized n)
    (hd : op.isDetermined) (hsize : size.constant? = some (Int64.ofInt z))
    (hz : fits64 z) (h : op.size == size) : op.width = z := by
  obtain ⟨hwidth, hfits⟩ := Operation.constant?_size hop hd
  refine ofInt_inj hfits hz (Option.some.inj ?_)
  rw [← hwidth, ← hsize, Quantity.constant?, Quantity.beq_iff.1 h]
  rfl

/-- An accepted target is as wide as an operation of determined size. -/
theorem width_of_checkTarget {op : Operation} {target : Qubits} {l : Option Location} {n : Nat}
    (hop : op.Sized n) (hsize : target.size.constant? = some (Int64.ofNat n)) (hn : fits64 n)
    (h : op.checkTarget target l = .ok ()) (hd : op.isDetermined) : op.width = n := by
  obtain ⟨hwidth, hfits⟩ := Operation.constant?_size hop hd
  have hsame := Operation.checkTarget_ok h hd
  exact ofInt_inj hfits hn (Quantity.eq_of_not_surelyDiffers hwidth hsize hsame)

/-- Both branches of a quantum choice are on its target. -/
theorem onto_branches [Fingerprint] {control : Qubits} {a b : Operation}
    {l : Option Location}
    (h : (Operation.choice control a b l).Onto I ρ xs target qs) :
    a.Onto I ρ xs target qs ∧ b.Onto I ρ xs target qs := by
  have hagree := h.agree
  simp only [Operation.branchesAgree, Bool.and_eq_true, beq_iff_eq, Bool.or_eq_true,
    Bool.not_eq_true'] at hagree
  obtain ⟨⟨⟨haa, hab⟩, hdet⟩, hsize⟩ := hagree
  obtain ⟨-, hsa, hsb⟩ := h.sized
  have hwidth : a.isDetermined → a.width = qs.length := h.width
  refine ⟨⟨haa, hsa, hwidth, h.apart.choice.1, h.target⟩, hab, hsb, fun hd => ?_,
    h.apart.choice.2, h.target⟩
  have hda : a.isDetermined := hdet.trans hd
  have hsize : a.size == b.size := by simpa [hda] using hsize
  obtain ⟨hsizeb, hfits⟩ := Operation.constant?_size hsb hd
  rw [← hwidth hda]
  exact (eq_of_size hsa hda hsizeb hfits hsize).symm

/-! ### Elementary operations -/

/-- The solution of a size for its hidden unknown is the value that the size has been reached
    with. -/
theorem constant?_of_solve? {a rhs v : Quantity} {x : String} {c k : Int64} {n : Int}
    (hlin : a.linearIn? x = some (c, k)) (hk : k ≠ 0) (hfits : fits64 (n - c.toInt))
    (hrhs : rhs.constant? = some (Int64.ofInt n)) (h : a.solve? rhs x = some v) :
    ∃ z, Operation.hiddenValue a x n = some z ∧ v.constant? = some (Int64.ofInt z) := by
  obtain ⟨c', k', hlin', rfl, hmod⟩ := Quantity.solve?_eq_some h
  obtain ⟨rfl, rfl⟩ : c = c' ∧ k = k' := by simpa [hlin] using hlin'
  -- the remainder, in 64 bits and exactly
  have hrem : (rhs - .const c).constant? = some (Int64.ofInt (n - c.toInt)) := by
    rw [Int64.ofInt_sub, Int64.ofInt_toInt]
    exact Quantity.constant?_sub hrhs Quantity.constant?_const
  have hmod := hmod _ hrem
  have hdvd := dvd_of_ofInt_mod hfits hmod
  refine ⟨(n - c.toInt) / k.toInt, ?_, ?_⟩
  · simp only [Operation.hiddenValue, hlin, Option.bind_some]
    rw [if_pos ⟨hk, Int.emod_eq_zero_of_dvd hdvd⟩]
  · rw [← ofInt_div hfits hdvd]
    exact Quantity.constant?_div hrem hk hmod

/-- The arguments that a call gets are those of its reading. -/
theorem unroll_call [Fingerprint] {d : Definition} {args resolved : List ClassicalValue}
    {own l : Option Location}
    (h : (Operation.elementary (.call d args) own).Onto I ρ xs target qs)
    (hr : resolveArgs d args target l = .ok resolved) :
    ∃ steps, (Action.apply (.call d resolved) target).unroll I ρ = some steps ∧
      (Operation.elementary (.call d args) own).reading qs = some steps := by
  have hq : target.resolveAt I ρ = some qs := h.target.settled.resolve
  have hsized := h.sized
  unfold resolveArgs at hr
  cases hx : d.hidden with
  | none =>
    have hdet : (Operation.elementary (.call d args) own).isDetermined := by
      simp [Operation.isDetermined, Operation.callIsDetermined, hx]
    simp only [hx, Except.ok.injEq] at hr
    subst hr
    exact ⟨[.call d none args qs], by simp [Action.unroll, hq, hx],
      by simp [Operation.reading, hx, h.width hdet]⟩
  | some x =>
    simp only [Operation.Sized, hx] at hsized
    obtain ⟨c, k, hlin, hk, hfits⟩ := hsized
    simp only [hx] at hr
    split at hr
    · rename_i value hv
      obtain rfl := Except.ok.inj hr
      obtain ⟨z, hhidden, hconst⟩ := constant?_of_solve? hlin hk hfits h.target.size hv
      have hvalue : value.value I ρ = Int64.ofInt z := by
        rw [Quantity.value_eq_eval]
        exact Quantity.eval_of_constant? hconst
      refine ⟨[.call d (some (Int64.ofInt z)) args qs], ?_, ?_⟩
      · simp only [Action.unroll, hq, hx, hvalue, Option.map_some]
      · simp [Operation.reading, hx, hhidden]
    · simp at hr

/-! ### Parts -/

/-- A slice has the constant size that its bounds span. -/
theorem constant?_size_slice {start stop : Quantity} {c : Int64}
    (h : target.slice start stop = .ok part) (hspan : (stop - start).constant? = some c) :
    part.size.constant? = some c := by
  rw [Quantity.constant?, Qubits.poly_size_slice h]
  exact hspan

/-- The part for one copy has the constant size that it was asked for. -/
theorem constant?_size_copyPart {partSize : Quantity} {x : String} {c : Int64}
    (h : copyPart target partSize (.named x) = .ok part) (hsize : partSize.constant? = some c) :
    part.size.constant? = some c := by
  rcases copyPart_ok h with ⟨hone, helement⟩ | ⟨-, hslice⟩
  · obtain ⟨rfl, -⟩ := Qubits.element_ok helement
    rw [Qubits.size, Quantity.constant?_const, ← hsize, hone]
  · exact constant?_size_slice hslice (Quantity.constant?_copySpan hsize)

/-- Equal parts of a constant target: their number divides its size. -/
theorem equalPart_ok {copies partSize : Quantity} {l : Option Location} {m n : Nat}
    (hsize : target.size.constant? = some (Int64.ofNat m)) (hm : fits64 m)
    (hcopies : copies.constant? = some (Int64.ofNat n)) (hn : fits64 n)
    (h : equalPart op copies target l = .ok partSize) :
    n ∣ m ∧ partSize.constant? = some (Int64.ofNat (m / n)) := by
  simp only [equalPart, Quantity.isConstant_of_constant? hsize,
    Quantity.isConstant_of_constant? hcopies] at h
  split at h
  · rename_i part hpart
    obtain rfl := Except.ok.inj h
    obtain ⟨-, hmod, hconst⟩ := Quantity.of_divExact? hsize hcopies hpart
    have hdvd := dvd_of_ofInt_mod hm hmod
    have hquot := ofInt_div hm hdvd
    rw [toInt_ofNat hn] at hdvd hquot
    refine ⟨Int.natCast_dvd_natCast.1 hdvd, hconst.trans (congrArg some ?_)⟩
    exact hquot
  · simp at h

/-- The parts for the copies of a tensor power have equal constant sizes that use up the target. -/
theorem copySize_ok [Fingerprint] {copies partSize : Quantity} {own l : Option Location}
    (h : (Operation.power base copies own).Onto I ρ xs target qs)
    (hs : copySize base copies own target l = .ok partSize) :
    ∃ n p : Nat, 0 < n ∧ fits64 n ∧ copies.constant? = some (Int64.ofNat n) ∧
      partSize.constant? = some (Int64.ofNat p) ∧ qs.length = n * p ∧ base.Sized p ∧
      (base.isDetermined → base.width = p) := by
  obtain ⟨m, hm, hpos, -, hbase⟩ := h.sized
  obtain ⟨n, hn, hlt, rfl⟩ := exists_ofNat_of_pos hpos
  rw [toInt_ofNat hlt] at hbase
  unfold copySize at hs
  by_cases hd : base.isDetermined
  · simp only [hd, if_true, Except.ok.injEq] at hs
    subst hs
    have hwidth : n * base.width = qs.length := by
      simpa [Operation.width, hm, toInt_ofNat hlt] using h.width hd
    obtain ⟨p, hp⟩ := Int.eq_ofNat_of_zero_le (Int.nonneg_of_mul_nonneg_right
      (hwidth ▸ Int.natCast_nonneg qs.length) (by omega))
    rw [Operation.widthOr, if_pos hd, hp] at hbase
    rw [hp] at hwidth
    have hsize := (Operation.constant?_size hbase hd).1
    rw [hp] at hsize
    exact ⟨n, p, hn, hlt, hm, hsize, by exact_mod_cast hwidth.symm, hbase, fun _ => hp⟩
  · simp only [hd, Bool.false_eq_true, if_false] at hs
    rw [Operation.widthOr, if_neg hd] at hbase
    obtain ⟨hdvd, hsize⟩ := equalPart_ok h.target.size h.target.small hm hlt hs
    exact ⟨n, qs.length / n, hn, hlt, hm, hsize, (Nat.mul_div_cancel' hdvd).symm,
      by exact_mod_cast hbase, fun h => absurd h hd⟩

theorem length_run {a n : Nat} (h : a + n ≤ qs.length) : ((qs.drop a).take n).length = n := by
  apply List.length_take_of_le
  rw [List.length_drop]
  omega

theorem equalRun_eq {n p i : Nat} (hn : 0 < n) (hlen : qs.length = n * p) :
    Operation.equalRun qs n i = (qs.drop (p * i)).take p := by
  rw [Operation.equalRun, hlen, Nat.mul_div_cancel_left _ hn]

/-- Equal runs lie inside. -/
theorem run_le_length {n p i : Nat} (hi : i < n) (hlen : qs.length = n * p) :
    p * i + p ≤ qs.length := by
  rw [hlen, Nat.mul_comm n, ← Nat.mul_succ]
  exact Nat.mul_le_mul_left p hi

/-- The part for copy number `i` stands for the run of its size that starts after `i` runs. -/
theorem resolve_copyPart {partSize : Quantity} {x : String} {σ : Symbol → Int64} {p i : Nat}
    (hq : target.resolve (Qubits.valuesAt σ) = some qs) (hsmall : fits64 qs.length)
    (h : copyPart target partSize (.named x) = .ok part)
    (hsize : partSize.constant? = some (Int64.ofNat p)) (hi : σ (.named x) = Int64.ofNat i)
    (hle : p * i + p ≤ qs.length) :
    part.resolve (Qubits.valuesAt σ) = some ((qs.drop (p * i)).take p) := by
  have hstart : (partSize * .named x).eval σ = Int64.ofNat (p * i) := by
    rw [Quantity.eval_mul_named hsize, hi, Int64.ofNat_mul]
  rcases copyPart_ok h with ⟨hone, helement⟩ | ⟨-, hslice⟩
  · obtain rfl : p = 1 := by
      have := congrArg Int64.toInt (Option.some.inj (hsize.symm.trans hone))
      rw [toInt_ofNat (fits64_of_le hsmall (by omega))] at this
      exact Int.ofNat_inj.1 this
    rw [Nat.one_mul] at hle ⊢
    exact Qubits.resolve_element hq hsmall helement (Quantity.eval_named.trans hi) (by omega)
  · have hstop : (partSize * .named x + partSize).eval σ = Int64.ofNat (p * i + p) := by
      rw [Quantity.eval_add, hstart, Quantity.eval_of_constant? hsize, Int64.ofNat_add]
    have hpart := Qubits.resolve_slice hq hsmall hslice hstart hstop (by omega) hle
    rwa [Nat.add_sub_cancel_left] at hpart

/-- The part for copy number `i` of a tensor power stands for run number `i` of the qubits. -/
theorem onto_copyPart [Fingerprint] {copies partSize : Quantity} {own : Option Location}
    {n p i : Nat} (h : (Operation.power base copies own).Onto I ρ xs target qs)
    (hpart : copyPart target partSize (powerIndex (.power base copies own)).quantity = .ok part)
    (hsize : partSize.constant? = some (Int64.ofNat p)) (hlen : qs.length = n * p)
    (hbase : base.Sized p) (hwidth : base.isDetermined → base.width = p) (hi : i < n) :
    base.Onto I (withValue ρ (powerIndex (.power base copies own)).name (Int64.ofNat i))
      (xs ++ [(powerIndex (.power base copies own)).name]) part (Operation.equalRun qs n i) := by
  have hsmall := h.target.small
  have hle := run_le_length hi hlen
  have hrun := length_run hle
  rw [equalRun_eq (by omega) hlen]
  refine ⟨h.agree, by rwa [hrun], by rwa [hrun], h.apart.power, ?_,
    fits64_of_le hsmall (by omega), ?_⟩
  · rw [hrun]
    exact constant?_size_copyPart hpart hsize
  · -- the index of this loop is none of the indices that the target mentions
    have htarget := h.target.settled.withValue (Int64.ofNat i) h.apart.not_mem
    intro ρ' hρ
    have hindex : Symbol.value I ρ' (.named (powerIndex (.power base copies own)).name) =
        Int64.ofNat i := by
      rw [Symbol.value, hρ _ (by simp), withValue, if_pos rfl]
    exact resolve_copyPart (htarget ρ' fun x hx => hρ x (by simp [hx])) hsmall hpart hsize hindex
      hle

/-- A slice of constant bounds denotes consecutive qubits. -/
theorem denotes_slice {start size : Quantity} {a n : Nat} (h : target.Denotes I ρ xs qs)
    (hpart : target.slice start (start + size) = .ok part)
    (hstart : start.constant? = some (Int64.ofNat a))
    (hsize : size.constant? = some (Int64.ofNat n)) (hle : a + n ≤ qs.length) :
    part.Denotes I ρ xs ((qs.drop a).take n) := by
  have hrun := length_run hle
  have hsmall := h.small
  refine ⟨?_, fits64_of_le hsmall (by omega), fun ρ' hρ => ?_⟩
  · rw [hrun]
    exact constant?_size_slice hpart (Quantity.constant?_span hstart hsize)
  · have hstop := Quantity.eval_of_constant? (Quantity.constant?_add hstart hsize)
      (ρ := Symbol.value I ρ')
    rw [← Int64.ofNat_add] at hstop
    have hslice := Qubits.resolve_slice (h.settled ρ' hρ) hsmall hpart
      (Quantity.eval_of_constant? hstart) hstop (by omega) hle
    rwa [Nat.add_sub_cancel_left] at hslice

/-! ### Combinations -/

section
variable {ops : List Operation} {remainder : Quantity} {r : Int} {l : Option Location}

/-- The sizes that a combination is split into. -/
abbrev partSizes (remainder : Quantity) (ops : List Operation) : List Quantity :=
  ops.map fun op => if op.isDetermined then op.size else remainder

theorem constant?_partSize (hop : op.Sized (op.widthOr r))
    (hr : remainder.constant? = some (Int64.ofInt r)) (hfits : fits64 r) :
    (if op.isDetermined then op.size else remainder).constant? =
        some (Int64.ofInt (op.widthOr r)) ∧ fits64 (op.widthOr r) := by
  unfold Operation.widthOr at hop ⊢
  split at hop
  · rename_i hd
    simpa only [hd, if_true] using Operation.constant?_size hop hd
  · rename_i hd
    simpa only [hd, if_false] using ⟨hr, hfits⟩

/-- All runs together: the determined widths and the remainder for each other element. -/
theorem runsWidth_eq : Operation.runsWidth r ops =
    Operation.knownWidth ops + (ops.filter fun op => !op.isDetermined).length * r := by
  induction ops with
  | nil => simp [Operation.runsWidth, Operation.knownWidth]
  | cons op ops ih =>
    rw [Operation.runsWidth, ih, Operation.knownWidth, Operation.widthOr]
    split
    · rename_i hd
      simp [hd, Int.add_assoc]
    · rename_i hd
      simp only [hd, Bool.not_false, List.filter_cons_of_pos, List.length_cons]
      grind

theorem allDetermined_of_filter (h : ops.filter (fun op => !op.isDetermined) = []) :
    Operation.allDetermined ops := by
  induction ops with
  | nil => rfl
  | cons op ops ih =>
    by_cases hd : op.isDetermined
    · simpa [Operation.allDetermined, hd] using ih (by simpa [hd] using h)
    · simp [hd] at h

/-- The parts of a combination use up the qubits. -/
theorem runsWidth_of_splitSizes [Fingerprint] {own : Option Location} {sizes : List Quantity}
    (h : (Operation.combination ops own).Onto I ρ xs target qs)
    (hs : splitSizes op ops target l = .ok sizes) :
    Operation.runsWidth (qs.length - Operation.knownWidth ops) ops = qs.length := by
  have hfew := (splitSizes_eq_ok hs).2
  rw [runsWidth_eq]
  match hops : ops.filter fun op => !op.isDetermined with
  | [] =>
    have hwidth : Operation.knownWidth ops = qs.length := h.width (allDetermined_of_filter hops)
    simp [hops, hwidth]
  | [_] =>
    rw [hops, List.length_singleton, Int.natCast_one, Int.one_mul]
    omega
  | _ :: _ :: _ => simp [hops] at hfew

/-- No part of a combination is empty. -/
theorem widthOr_pos {start : Quantity} {c : Int64} (hop : op.Sized (op.widthOr r))
    (hr : remainder.constant? = some (Int64.ofInt r)) (hfits : fits64 r)
    (hstart : start.constant? = some c)
    (hpart : target.slice start (start + if op.isDetermined then op.size else remainder) =
      .ok part) : 0 < op.widthOr r := by
  obtain ⟨hsize, hwidth⟩ := constant?_partSize hop hr hfits
  have hspan := Quantity.constant?_span hstart hsize
  have hpos := Int64.lt_iff_toInt_lt.1 ((Qubits.slice_ok hpart).2.1 _ hspan)
  rwa [toInt_ofInt hwidth] at hpos

theorem runsWidth_nonneg [Fingerprint] {site : Option Location} {start : Quantity} {c : Int64}
    {s s' : Scopes} {code : List Instruction} (hops : Operation.PartsSized r ops)
    (hr : remainder.constant? = some (Int64.ofInt r)) (hfits : fits64 r)
    (hstart : start.constant? = some c)
    (h : Yields (lowerParts target site start (partSizes remainder ops) ops) s code s') :
    0 ≤ Operation.runsWidth r ops := by
  induction ops generalizing start c s code with
  | nil => exact Int.le_refl 0
  | cons op ops ih =>
    rcases lowerParts_cons h with ⟨hnil, -, -⟩ | ⟨size, sizes, part, first, rest, t, hsizes, hpart,
      -, hrest, -⟩
    · simp at hnil
    · rw [partSizes, List.map_cons, List.cons.injEq] at hsizes
      obtain ⟨rfl, rfl⟩ := hsizes
      have hpos := widthOr_pos hops.1 hr hfits hstart hpart
      have hsize := (constant?_partSize hops.1 hr hfits).1
      have := ih hops.2 (Quantity.constant?_add hstart hsize) hrest
      rw [Operation.runsWidth]
      omega

/-- The part for an element of a combination denotes the next qubits. -/
theorem onto_part [Fingerprint] {start : Quantity} {k n : Nat} (ha : op.branchesAgree)
    (hop : op.Sized (op.widthOr r)) (hn : op.widthOr r = n) (h : target.Denotes I ρ xs qs)
    (hxs : op.Apart xs)
    (hpart : target.slice start (start + if op.isDetermined then op.size else remainder) =
      .ok part)
    (hstart : start.constant? = some (Int64.ofNat k))
    (hsize : (if op.isDetermined then op.size else remainder).constant? = some (Int64.ofNat n))
    (hle : k + n ≤ qs.length) : op.Onto I ρ xs part ((qs.drop k).take n) := by
  have hrun := length_run hle
  refine ⟨ha, ?_, fun hd => ?_, hxs, denotes_slice h hpart hstart hsize hle⟩
  · rwa [hrun, ← hn]
  · rw [hrun, ← hn, Operation.widthOr, if_pos hd]

end

end Lowering

end QuantumLowering
