/-
  Which products are accepted.

  * `Polynomial.InOrder.constant?_sub_iff`: the difference of two polynomials is the constant `d`
    exactly if all weights differ by `d` times the weight of `1`.
  * `Quantity.comparable`: the difference is a constant.  On the polynomials that the operations
    make this is an equivalence, and comparable quantities that do not surely differ are equal.
  * `Operation.NoConflict`: no two elements of determined size surely differ in size.
  * `Operation.exists_ofSequence_iff`: a product is accepted if there is no conflict among the
    elements that can be compared with the first determined one, and it is accepted in all orders
    if there is no conflict at all.
-/
import QuantumLowering.Proofs.Constants
import QuantumLowering.Proofs.Construction
import QuantumLowering.Proofs.RingLaws
import QuantumLowering.Proofs.Solving

namespace QuantumLowering

/-! ## Comparable quantities -/

namespace Polynomial

variable {σ : Type} {p q : Polynomial σ} {d : Int64}

theorem InOrder.constant?_sub_iff [Ord σ] [Std.TransOrd σ] [Std.LawfulEqOrd σ]
    (hp : InOrder p.terms) (hq : InOrder q.terms) :
    (p - q).constant? = some d ↔ ∀ w, weigh w p.terms = weigh w q.terms + d * w .one := by
  constructor
  · intro h w
    rw [← weigh_of_constant? h, weigh_sub]
    grind
  · intro h
    have hdiff : p - q = const d := by
      refine ext (hp.sub hq) Canonical.const.inOrder fun w => ?_
      rw [weigh_sub, weigh_const, h]
      grind
    rw [hdiff, constant?_const]

end Polynomial

namespace Quantity

variable {a b c : Quantity}

/-- Whether the difference is a constant, so that it is known whether the two are equal. -/
def comparable (a b : Quantity) : Bool := (a - b).isConstant

theorem comparable_of_surelyDiffers (h : a.surelyDiffers b) : a.comparable b := by
  unfold surelyDiffers at h
  split at h
  · rename_i hd
    exact isConstant_of_constant? hd
  · simp at h

theorem comparable_iff (ha : a.poly.Built) (hb : b.poly.Built) :
    a.comparable b ↔ ∃ d : Int64, ∀ w, Polynomial.weigh w a.poly.terms =
      Polynomial.weigh w b.poly.terms + d * w .one := by
  simp only [← ha.canonical.inOrder.constant?_sub_iff hb.canonical.inOrder]
  exact Option.isSome_iff_exists

theorem comparable_refl (ha : a.poly.Built) : a.comparable a :=
  (comparable_iff ha ha).2 ⟨0, fun w => by grind⟩

theorem comparable_symm (ha : a.poly.Built) (hb : b.poly.Built) (h : a.comparable b) :
    b.comparable a := by
  obtain ⟨d, hd⟩ := (comparable_iff ha hb).1 h
  exact (comparable_iff hb ha).2 ⟨-d, fun w => by rw [hd]; grind⟩

theorem comparable_trans (ha : a.poly.Built) (hb : b.poly.Built) (hc : c.poly.Built)
    (hab : a.comparable b) (hbc : b.comparable c) : a.comparable c := by
  obtain ⟨d, hd⟩ := (comparable_iff ha hb).1 hab
  obtain ⟨e, he⟩ := (comparable_iff hb hc).1 hbc
  exact (comparable_iff ha hc).2 ⟨d + e, fun w => by rw [hd, he]; grind⟩

theorem eq_of_comparable (ha : a.poly.Built) (hb : b.poly.Built) (h : a.comparable b)
    (hsame : a.surelyDiffers b = false) : a.poly = b.poly := by
  obtain ⟨d, hd⟩ : ∃ d, (a - b).constant? = some d := Option.isSome_iff_exists.1 h
  obtain rfl : d = 0 := by simpa [surelyDiffers, hd] using hsame
  refine Polynomial.InOrder.ext ha.canonical.inOrder hb.canonical.inOrder fun w => ?_
  rw [(ha.canonical.inOrder.constant?_sub_iff hb.canonical.inOrder).1 hd w]
  grind

end Quantity

namespace Operation

variable {es es' : List Operation} {r : Operation}

/-! ## Conflicts -/

/-- No two elements of determined size surely differ in size. -/
def NoConflict (es : List Operation) : Prop :=
  ∀ a ∈ es, ∀ b ∈ es, a.isDetermined → b.isDetermined → a.size.surelyDiffers b.size = false

theorem NoConflict.mono (h : NoConflict es') (hsub : ∀ a ∈ es, a ∈ es') : NoConflict es :=
  fun a ha b hb => h a (hsub a ha) b (hsub b hb)

/-- The comparisons that are made. -/
theorem exists_ofSequence_iff_find? :
    (∃ op, ofSequence es = .ok op) ↔
      es ≠ [] ∧ ∀ r, es.find? isDetermined = some r →
        ∀ a ∈ es, a.isDetermined → a.size.surelyDiffers r.size = false := by
  unfold ofSequence
  cases es with
  | nil => simp
  | cons e es =>
    simp only [List.isEmpty_cons, Bool.false_eq_true, if_false, ne_eq, reduceCtorEq,
      not_false_eq_true, true_and]
    cases hr : (e :: es).find? isDetermined with
    | none => simp
    | some r =>
      simp only [Option.some.injEq, forall_eq']
      split
      · rename_i op hop
        have hfound := List.find?_some hop
        simp only [Bool.and_eq_true] at hfound
        simp only [reduceCtorEq, exists_false, false_iff]
        intro h
        simp [h op (List.mem_of_find?_eq_some hop) hfound.1] at hfound
      · rename_i hnone
        simp only [Except.ok.injEq, exists_eq', true_iff]
        intro a ha hdet
        simpa [hdet] using List.find?_eq_none.1 hnone a ha

/-- The elements that are comparable with the first determined one have no conflict exactly if none
    of them has one with it. -/
theorem noConflict_comparable_iff (hbuilt : ∀ op ∈ es, op.size.poly.Built)
    (hr : es.find? isDetermined = some r) :
    NoConflict (es.filter (·.size.comparable r.size)) ↔
      ∀ a ∈ es, a.isDetermined → a.size.surelyDiffers r.size = false := by
  have hmem : r ∈ es := List.mem_of_find?_eq_some hr
  have hdet : r.isDetermined := List.find?_some hr
  constructor
  · intro h a ha hadet
    by_contra hdiff
    have hcomp := Quantity.comparable_of_surelyDiffers (by simpa using hdiff)
    exact hdiff <| h a (List.mem_filter.2 ⟨ha, hcomp⟩) r
      (List.mem_filter.2 ⟨hmem, Quantity.comparable_refl (hbuilt r hmem)⟩) hadet hdet
  · intro h a ha b hb hadet hbdet
    have hsize {a : Operation} (ha : a ∈ es.filter (·.size.comparable r.size))
        (hadet : a.isDetermined) : a.size.poly = r.size.poly := by
      obtain ⟨ha, hcomp⟩ := List.mem_filter.1 ha
      exact Quantity.eq_of_comparable (hbuilt a ha) (hbuilt r hmem) hcomp (h a ha hadet)
    exact Quantity.not_surelyDiffers_of_eq ((hsize ha hadet).trans (hsize hb hbdet).symm)

theorem exists_ofSequence_iff_comparable (hbuilt : ∀ op ∈ es, op.size.poly.Built) :
    (∃ op, ofSequence es = .ok op) ↔
      es ≠ [] ∧ ∀ r, es.find? isDetermined = some r →
        NoConflict (es.filter (·.size.comparable r.size)) := by
  rw [exists_ofSequence_iff_find?]
  exact and_congr_right fun _ =>
    forall₂_congr fun r hr => (noConflict_comparable_iff hbuilt hr).symm

/-! ## Orders -/

/-- Another order is accepted too if its first determined element is comparable with the one that
    was the first. -/
theorem exists_ofSequence_of_perm (hbuilt : ∀ op ∈ es, op.size.poly.Built) (hperm : es.Perm es')
    (hfirst : ∀ r r', es.find? isDetermined = some r → es'.find? isDetermined = some r' →
      r.size.comparable r'.size) (h : ∃ op, ofSequence es = .ok op) :
    ∃ op, ofSequence es' = .ok op := by
  have hbuilt' : ∀ op ∈ es', op.size.poly.Built := fun op hop => hbuilt op (hperm.mem_iff.2 hop)
  obtain ⟨hne, hnone⟩ := (exists_ofSequence_iff_comparable hbuilt).1 h
  refine (exists_ofSequence_iff_comparable hbuilt').2
    ⟨fun hnil => hne (hperm.trans (.of_eq hnil)).eq_nil, fun r' hr' => ?_⟩
  have hmem' : r' ∈ es := hperm.mem_iff.2 (List.mem_of_find?_eq_some hr')
  cases hr : es.find? isDetermined with
  | none => exact absurd (List.find?_some hr') (List.find?_eq_none.1 hr r' hmem')
  | some r =>
    have hmem : r ∈ es := List.mem_of_find?_eq_some hr
    have hback := Quantity.comparable_symm (hbuilt r hmem) (hbuilt r' hmem') (hfirst r r' hr hr')
    refine (hnone r hr).mono fun a ha => ?_
    obtain ⟨ha, hcomp⟩ := List.mem_filter.1 ha
    have ha : a ∈ es := hperm.mem_iff.2 ha
    exact List.mem_filter.2 ⟨ha, Quantity.comparable_trans (hbuilt a ha) (hbuilt r' hmem')
      (hbuilt r hmem) hcomp hback⟩

/-- Some order is refused if there is a conflict, namely one that starts with one of its
    elements. -/
theorem noConflict_of_forall_perm (h : ∀ es', es.Perm es' → ∃ op, ofSequence es' = .ok op) :
    NoConflict es := by
  intro a ha b hb hadet hbdet
  obtain ⟨before, after, rfl⟩ := List.append_of_mem hb
  have hperm : (before ++ b :: after).Perm (b :: (before ++ after)) := List.perm_middle
  have hchecks := (exists_ofSequence_iff_find?.1 (h _ hperm)).2
  exact hchecks b (List.find?_cons_of_pos hbdet) a (hperm.mem_iff.1 ha) hadet

/-- **Which products are accepted** in the order they are written in, and which in all orders.  The
    first determined element decides which of the others can conflict, and any order that has a
    comparable one first is accepted with it. -/
theorem exists_ofSequence_iff (hbuilt : ∀ op ∈ es, op.size.poly.Built) :
    ((∃ op, ofSequence es = .ok op) ↔
      es ≠ [] ∧ ∀ r, es.find? isDetermined = some r →
        NoConflict (es.filter (·.size.comparable r.size))) ∧
    (∀ es', es.Perm es' →
      (∀ r r', es.find? isDetermined = some r → es'.find? isDetermined = some r' →
        r.size.comparable r'.size) →
      ((∃ op, ofSequence es = .ok op) ↔ ∃ op, ofSequence es' = .ok op)) ∧
    ((∀ es', es.Perm es' → ∃ op, ofSequence es' = .ok op) ↔ es ≠ [] ∧ NoConflict es) := by
  refine ⟨exists_ofSequence_iff_comparable hbuilt, fun es' hperm hfirst => ?_, fun h => ?_, ?_⟩
  · refine ⟨exists_ofSequence_of_perm hbuilt hperm hfirst, ?_⟩
    refine exists_ofSequence_of_perm (fun op hop => hbuilt op (hperm.mem_iff.2 hop)) hperm.symm ?_
    intro r' r hr' hr
    exact Quantity.comparable_symm (hbuilt r (List.mem_of_find?_eq_some hr))
      (hbuilt r' (hperm.mem_iff.2 (List.mem_of_find?_eq_some hr'))) (hfirst r r' hr hr')
  · exact ⟨(exists_ofSequence_iff_find?.1 (h es (.refl es))).1, noConflict_of_forall_perm h⟩
  · rintro ⟨hne, hnone⟩ es' hperm
    refine exists_ofSequence_iff_find?.2
      ⟨fun hnil => hne (hperm.trans (.of_eq hnil)).eq_nil, fun r hr a ha hadet => ?_⟩
    exact hnone a (hperm.mem_iff.2 ha) r (hperm.mem_iff.2 (List.mem_of_find?_eq_some hr)) hadet
      (List.find?_some hr)

/-- A call of an operation on `n` qubits, with `n` known to its caller. -/
def wide : Operation :=
  .elementary (.call ⟨"wide", [], ⟨⟨"r", .named "n", .reference⟩, none⟩, none⟩ []) none

theorem size_wide : wide.size = .named "n" := by
  rw [wide, size]
  rfl

/-- Gates on one qubit and the operation of unknown size have no conflict. -/
theorem exists_ofSequence_iff_oneQubit :
    (∀ op ∈ [ofGate .x, wide, ofGate .h], op.size.poly.Built) ∧
      NoConflict [ofGate .x, wide, ofGate .h] ∧
      ∀ es', [ofGate .x, wide, ofGate .h].Perm es' → ∃ op, ofSequence es' = .ok op := by
  have hsizes : ∀ op ∈ [ofGate .x, wide, ofGate .h],
      op.size = .const 1 ∨ op.size = .named "n" := by
    simp only [List.forall_mem_cons]
    exact ⟨.inl size_ofGate, .inr size_wide, .inl size_ofGate, by simp⟩
  have hbuilt : ∀ op ∈ [ofGate .x, wide, ofGate .h], op.size.poly.Built := by
    intro op hop
    rcases hsizes op hop with h | h <;> rw [h]
    · exact Polynomial.Built.const (c := 1)
    · exact .ofSymbol
  have hnone : NoConflict [ofGate .x, wide, ofGate .h] := by
    intro a ha b hb _ _
    rcases hsizes a ha with ha | ha <;> rcases hsizes b hb with hb | hb <;> rw [ha, hb]
    · rfl
    · rfl
    · rfl
    · exact Quantity.not_surelyDiffers_of_eq rfl
  exact ⟨hbuilt, hnone, (exists_ofSequence_iff hbuilt).2.2.2 ⟨by simp, hnone⟩⟩

/-- A gate on one qubit and a gate on two conflict; they are accepted after the operation of unknown
    size, and refused before it. -/
theorem exists_ofSequence_conflict :
    (∃ op, ofSequence [wide, ofGate .x, ofGate .swap] = .ok op) ∧
      ¬ NoConflict [wide, ofGate .x, ofGate .swap] ∧
      [wide, ofGate .x, ofGate .swap].Perm [ofGate .x, ofGate .swap, wide] ∧
      ¬ ∃ op, ofSequence [ofGate .x, ofGate .swap, wide] = .ok op := by
  have hconflict : (ofGate .swap).size.surelyDiffers (ofGate .x).size = true := by
    rw [size_ofGate, size_ofGate]
    rfl
  refine ⟨?_, fun h => ?_, (List.perm_append_singleton wide [_, _]).symm, fun h => ?_⟩
  · refine exists_ofSequence_iff_find?.2 ⟨by simp, fun r hr => ?_⟩
    obtain rfl : wide = r := Option.some.inj hr
    simp only [List.forall_mem_cons, size_ofGate, size_wide]
    exact ⟨fun _ => Quantity.not_surelyDiffers_of_eq rfl, fun _ => rfl, fun _ => rfl, by simp⟩
  · have := h (ofGate .swap) (by simp) (ofGate .x) (by simp) rfl rfl
    simp [this] at hconflict
  · have := (exists_ofSequence_iff_find?.1 h).2 (ofGate .x) rfl (ofGate .swap) (by simp) rfl
    simp [this] at hconflict

end Operation

end QuantumLowering
