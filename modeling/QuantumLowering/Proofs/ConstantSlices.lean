/-
  Slices with constant bounds of a register of constant size.

  * `exclusiveEnd`: the exclusive bound of a slice as an integer.
  * `Qubits.Reversed`: bounds whose difference is so negative that it wraps around.
  * `Qubits.exists_sliceWith_iff`: which slices are accepted.  These are the slices inside of the
    register, and those with reversed bounds.
  * `Quantity.value_div`: a quotient of constants has the value of the truncated quotient, whether
    it folds or stays symbolic.
  * `Qubits.size_sliceWith`: the size of a slice is the number of its positions if there is one of
    them or the step divides the span, and one less otherwise.
-/
import QuantumLowering.Proofs.ConstantSizes
import QuantumLowering.Proofs.Progressions

namespace QuantumLowering

/-- The exclusive bound of a slice, as an integer. -/
def exclusiveEnd (stop : Int64) (inclusive : Bool) : Int :=
  stop.toInt + if inclusive then 1 else 0

/-! ## Quotients -/

namespace Quantity

variable {I : Interpretation} {ρ : String → Int64} {a b : Quantity} {c d : Int64}

theorem value_of_constant? (h : a.constant? = some c) : a.value I ρ = c := by
  rw [value_eq_eval, eval_of_constant? h]

/-- A quotient of constants, read as the truncated quotient where it stays symbolic. -/
theorem value_div (hI : ∀ y z, I.operator .div y z = y / z) (ha : a.constant? = some c)
    (hb : b.constant? = some d) : (a / b).value I ρ = c / d := by
  have hpoly : (a / b).poly =
      (a.poly.divExact? d).getD (.ofSymbol (.binary .div a.poly b.poly)) := by
    have hresult : BinOp.div.result? a.poly b.poly = a.poly.divExact? d := by
      rw [BinOp.result?, show b.poly.constant? = some d from hb, Option.bind_some]
    rw [← hresult]
    rfl
  cases hq : a.poly.divExact? d with
  | some q =>
    refine value_of_constant? ?_
    rw [constant?, hpoly, hq]
    exact (Polynomial.of_divExact? ha hq).2.2
  | none =>
    have hvalue : Symbol.value I ρ (.binary .div a.poly b.poly) = c / d := by
      rw [Symbol.value, hI]
      exact congrArg₂ _ (value_of_constant? ha) (value_of_constant? hb)
    rw [value_eq_eval, eval, hpoly, hq, Option.getD_none, Polynomial.eval_ofSymbol, hvalue]

end Quantity

namespace Qubits

variable {q : Qubits} {start stop step : Quantity} {inclusive : Bool} {n a b c : Int64}

/-! ## Acceptance -/

/-- The exclusive bound as it is computed. -/
theorem constant?_stop (hstop : stop.constant? = some b) :
    (if inclusive then stop + .const 1 else stop).constant? =
      some (Int64.ofInt (exclusiveEnd b inclusive)) := by
  cases inclusive with
  | false => simpa [exclusiveEnd] using hstop
  | true =>
    have hsum := Quantity.constant?_add hstop (Quantity.constant?_const (c := 1))
    simpa [exclusiveEnd, Int64.ofInt_add] using hsum

theorem element_eq_ok_iff {part : Qubits} (hsize : q.size.constant? = some n)
    (hstart : start.constant? = some a) :
    q.element start = .ok part ↔ (0 ≤ a ∧ a < n) ∧ part = .single q start := by
  constructor
  · intro h
    obtain ⟨rfl, hin⟩ := element_ok h
    obtain ⟨hlow, hhigh⟩ := hin a hstart
    exact ⟨⟨hlow, hhigh n hsize⟩, rfl⟩
  · rintro ⟨hin, rfl⟩
    refine element_eq_ok hsize fun i hi => ?_
    rwa [← Option.some.inj (hstart.symm.trans hi)]

/-- The checks of a slice: stride, start, the computed span, and then the index of a single qubit or
    the bound. -/
theorem sliceWith_eq_ok_iff {part : Qubits} {stop' : Quantity} {e : Int64}
    (hstop' : stop' = if inclusive then stop + .const 1 else stop)
    (hsize : q.size.constant? = some n) (hstart : start.constant? = some a)
    (hend : stop'.constant? = some e) (hstep : step.constant? = some c) :
    q.sliceWith start stop step inclusive = .ok part ↔
      0 < c ∧ 0 ≤ a ∧ 0 < e - a ∧
        ((e - a = 1 ∧ a < n ∧ part = .single q start) ∨
          (e - a ≠ 1 ∧ e ≤ n ∧ part = .strided q start stop' step)) := by
  have hspan := Quantity.constant?_sub hend hstart
  simp only [sliceWith, pastEnd?, ← hstop', hstep, hstart, hspan, hend, hsize, Option.any_some,
    decide_eq_true_eq, Option.some_beq_some, beq_iff_eq]
  by_cases hc : c ≤ 0
  · simp [hc, Int64.not_lt.2 hc]
  by_cases ha : a < 0
  · simp [hc, ha, Int64.not_le.2 ha]
  by_cases hd : e - a ≤ 0
  · simp [hc, ha, hd, Int64.not_lt.2 hd]
  have hlow := Int64.not_lt.1 ha
  simp only [hc, ha, hd, if_false, Int64.not_le.1 hc, Int64.not_le.1 hd, hlow, true_and]
  by_cases h1 : e - a = 1
  · simp [h1, element_eq_ok_iff hsize hstart, hlow]
  · by_cases hn : n < e
    · simp [h1, hn, Int64.not_le.2 hn]
    · simp [h1, hn, Int64.not_lt.1 hn, eq_comm]

/-- The difference of the bounds wraps around, so that a bound below the start looks like one above
    it.  A difference that comes out as one is not among them: then the index is past the end. -/
def Reversed (a e : Int64) : Prop := ¬ fits64 (e.toInt - a.toInt) ∧ e - a ≠ 1

/-- The computed span tells whether the bounds are in order and inside, unless they are reversed. -/
theorem span_inside_iff {e : Int64} (ha : 0 ≤ a.toInt) (hn : 0 ≤ n.toInt)
    (he : e = Int64.ofInt (exclusiveEnd b inclusive)) :
    (0 < e - a ∧ ((e - a = 1 ∧ a < n) ∨ (e - a ≠ 1 ∧ e ≤ n))) ↔
      (a.toInt < exclusiveEnd b inclusive ∧ exclusiveEnd b inclusive ≤ n.toInt) ∨ Reversed a e := by
  have hE : exclusiveEnd b inclusive = b.toInt ∨ exclusiveEnd b inclusive = b.toInt + 1 := by
    cases inclusive <;> simp [exclusiveEnd]
  -- the bound and the span are right up to multiples of `2 ^ 64`
  obtain ⟨k, hk⟩ := dvd_sub_toInt_ofInt (exclusiveEnd b inclusive)
  obtain ⟨l, hl⟩ := dvd_sub_toInt_ofInt (e.toInt - a.toInt)
  rw [← he] at hk
  rw [Int64.ofInt_sub, Int64.ofInt_toInt, Int64.ofInt_toInt] at hl
  have hone : (1 : Int64).toInt = 1 := rfl
  have hb := fits64_toInt b
  have hn' := fits64_toInt n
  have he' := fits64_toInt e
  have ha' := fits64_toInt a
  have hd := fits64_toInt (e - a)
  simp only [Reversed, fits64_iff, ne_eq, ← Int64.toInt_inj, Int64.lt_iff_toInt_lt,
    Int64.le_iff_toInt_le, Int64.toInt_zero, hone] at *
  generalize exclusiveEnd b inclusive = E at *
  generalize (e - a).toInt = d at *
  omega

/-- **Which slices with constant bounds are accepted.**  If neither the exclusive bound nor the span
    overflows, these are the slices with a positive step that lie inside of the register and hold a
    qubit.  In general slices with reversed bounds are accepted too. -/
theorem exists_sliceWith_iff (hsize : q.size.constant? = some n) (hn : 0 ≤ n.toInt)
    (hstart : start.constant? = some a) (hstop : stop.constant? = some b)
    (hstep : step.constant? = some c) :
    (fits64 (exclusiveEnd b inclusive) → fits64 (exclusiveEnd b inclusive - a.toInt) →
      ((∃ part, q.sliceWith start stop step inclusive = .ok part) ↔
        1 ≤ c.toInt ∧ 0 ≤ a.toInt ∧ a.toInt < exclusiveEnd b inclusive ∧
          exclusiveEnd b inclusive ≤ n.toInt)) ∧
    ((∃ part, q.sliceWith start stop step inclusive = .ok part) ↔
      1 ≤ c.toInt ∧ 0 ≤ a.toInt ∧
        ((a.toInt < exclusiveEnd b inclusive ∧ exclusiveEnd b inclusive ≤ n.toInt) ∨
          Reversed a (Int64.ofInt (exclusiveEnd b inclusive)))) := by
  have hiff : (∃ part, q.sliceWith start stop step inclusive = .ok part) ↔
      1 ≤ c.toInt ∧ 0 ≤ a.toInt ∧
        ((a.toInt < exclusiveEnd b inclusive ∧ exclusiveEnd b inclusive ≤ n.toInt) ∨
          Reversed a (Int64.ofInt (exclusiveEnd b inclusive))) := by
    have hpos : 0 < c ↔ 1 ≤ c.toInt := Int64.lt_iff_toInt_lt
    have hlow : 0 ≤ a ↔ 0 ≤ a.toInt := Int64.le_iff_toInt_le
    simp only [sliceWith_eq_ok_iff rfl hsize hstart (constant?_stop hstop) hstep, exists_and_left,
      exists_or, exists_eq, and_true, hpos, hlow]
    exact and_congr_right fun _ => and_congr_right fun ha => span_inside_iff ha hn rfl
  refine ⟨fun hend hspan => ?_, hiff⟩
  have hordered : ¬ Reversed a (Int64.ofInt (exclusiveEnd b inclusive)) := by
    rw [Reversed, toInt_ofInt hend]
    exact fun h => h.1 hspan
  rw [hiff, or_iff_left hordered]

/-- A register of five qubits. -/
def fiveQubits : Qubits := .register ⟨"q", .const 5, .owner⟩

theorem constant?_size_fiveQubits : fiveQubits.size.constant? = some 5 := by
  rw [fiveQubits, size]
  rfl

/-- Every second of five qubits is accepted, with an inclusive bound. -/
theorem exists_sliceWith_iff_everySecond :
    fiveQubits.size.constant? = some 5 ∧ 0 ≤ (5 : Int64).toInt ∧
      (Quantity.const 0).constant? = some 0 ∧ (Quantity.const 4).constant? = some 4 ∧
      (Quantity.const 2).constant? = some 2 ∧ fits64 (exclusiveEnd 4 true) ∧
      fits64 (exclusiveEnd 4 true - (0 : Int64).toInt) ∧
      ∃ part, fiveQubits.sliceWith (.const 0) (.const 4) (.const 2) true = .ok part := by
  have hend : fits64 (exclusiveEnd 4 true) := by
    rw [show exclusiveEnd 4 true = 5 from rfl, fits64_iff]
    omega
  have haccepted := @exists_sliceWith_iff fiveQubits (.const 0) (.const 4) (.const 2) true 5 0 4 2
    constant?_size_fiveQubits (by decide) rfl rfl rfl
  exact ⟨constant?_size_fiveQubits, by decide, rfl, rfl, rfl, hend, hend,
    (haccepted.1 hend hend).2 (by decide)⟩

/-- A bound far below the start is accepted, and so is an inclusive bound whose successor
    overflows. -/
theorem exists_sliceWith_reversed :
    ((∃ part, fiveQubits.sliceWith (.const 1) (.const Int64.minValue) (.const 1) false = .ok part) ∧
      ¬ (1 : Int64).toInt < exclusiveEnd Int64.minValue false) ∧
    (∃ part, fiveQubits.sliceWith (.const 1) (.const Int64.maxValue) (.const 1) true = .ok part) ∧
      ¬ exclusiveEnd Int64.maxValue true ≤ (5 : Int64).toInt := by
  have haccepted (inclusive : Bool) {stop : Quantity} (e : Int64)
      (hend : (if inclusive then stop + .const 1 else stop).constant? = some e)
      (he : 0 < e - 1 ∧ e - 1 ≠ 1 ∧ e ≤ 5) :
      ∃ part, fiveQubits.sliceWith (.const 1) stop (.const 1) inclusive = .ok part :=
    ⟨_, (sliceWith_eq_ok_iff rfl constant?_size_fiveQubits rfl hend rfl).2
      ⟨by decide, by decide, he.1, .inr ⟨he.2.1, he.2.2, rfl⟩⟩⟩
  exact ⟨⟨haccepted false Int64.minValue rfl (by decide), by decide⟩,
    haccepted true Int64.minValue rfl (by decide), by decide⟩

/-! ## Sizes -/

variable {I : Interpretation} {ρ : String → Int64}

/-- A span that is a 64-bit number is computed exactly. -/
theorem toInt_span {E : Int} (h : fits64 (E - a.toInt)) :
    (Int64.ofInt E - a).toInt = E - a.toInt := by
  rw [← toInt_ofInt h, Int64.ofInt_sub, Int64.ofInt_toInt]

/-- A quotient of a span by a positive step does not overflow. -/
theorem toInt_span_div {d : Int64} (hd : 0 ≤ d.toInt) : (d / c).toInt = d.toInt / c.toInt := by
  have hmin : d ≠ Int64.minValue := by
    rintro rfl
    exact absurd hd (by decide)
  rw [Int64.toInt_div_of_ne_left _ _ hmin, Int.tdiv_eq_ediv_of_nonneg hd]

/-- **The size of a slice counts its positions** if there is one of them or the step divides the
    span; otherwise it counts one less, where a quotient that stays symbolic is read as the
    truncated one. -/
theorem size_sliceWith (hI : ∀ y z, I.operator .div y z = y / z)
    (hsize : q.size.constant? = some n) (hstart : start.constant? = some a)
    (hstop : stop.constant? = some b) (hstep : step.constant? = some c) (hc : 1 ≤ c.toInt)
    (ha : 0 ≤ a.toInt) (hlt : a.toInt < exclusiveEnd b inclusive)
    (hle : exclusiveEnd b inclusive ≤ n.toInt) :
    ∃ part, q.sliceWith start stop step inclusive = .ok part ∧
      ((positions a.toInt (exclusiveEnd b inclusive) c.toInt).card : Int) =
        (part.size.value I ρ).toInt +
          if exclusiveEnd b inclusive - a.toInt = 1 ∨ c.toInt ∣ exclusiveEnd b inclusive - a.toInt
          then 0 else 1 := by
  have hend := @constant?_stop stop inclusive b hstop
  obtain ⟨hpos, hinside⟩ := (span_inside_iff (by omega) (by omega) rfl).2 (.inl ⟨hlt, hle⟩)
  have hspan : (Int64.ofInt (exclusiveEnd b inclusive) - a).toInt =
      exclusiveEnd b inclusive - a.toInt := by
    have hn := fits64_toInt n
    rw [fits64_iff] at hn
    exact toInt_span (by rw [fits64_iff]; omega)
  have hstride : 0 < c := Int64.lt_iff_toInt_lt.2 hc
  have hlow : 0 ≤ a := Int64.le_iff_toInt_le.2 ha
  rcases hinside with ⟨h1, hn⟩ | ⟨h1, hn⟩
  · refine ⟨.single q start, (sliceWith_eq_ok_iff rfl hsize hstart hend hstep).2
      ⟨hstride, hlow, hpos, .inl ⟨h1, hn, rfl⟩⟩, ?_⟩
    have hone : exclusiveEnd b inclusive - a.toInt = 1 := by rw [← hspan, h1]; rfl
    have hvalue : (Qubits.single q start).size.value I ρ = 1 := by
      rw [size, Quantity.value_of_constant? Quantity.constant?_const]
    rw [card_positions_one (by omega) hone, hvalue, if_pos (.inl hone)]
    rfl
  · refine ⟨.strided q start _ step, (sliceWith_eq_ok_iff rfl hsize hstart hend hstep).2
      ⟨hstride, hlow, hpos, .inr ⟨h1, hn, rfl⟩⟩, ?_⟩
    have hmany : exclusiveEnd b inclusive - a.toInt ≠ 1 := by
      rw [← hspan]
      exact fun h => h1 (Int64.toInt_inj.1 h)
    have hvalue := Quantity.value_div (ρ := ρ) hI (Quantity.constant?_sub hend hstart) hstep
    rw [size, hvalue, toInt_span_div (by omega), hspan, card_positions (by omega) hlt.le]
    simp only [hmany, false_or]

/-- Truncated quotients, and nothing else that stays symbolic. -/
def truncating : Interpretation :=
  ⟨fun op y z => if op = .div then y / z else 0, fun _ _ => 0⟩

/-- The second and the fourth of five qubits are two. -/
theorem size_sliceWith_evenSpan :
    (∀ y z, truncating.operator .div y z = y / z) ∧ fiveQubits.size.constant? = some 5 ∧
      (Quantity.const 1).constant? = some 1 ∧ (Quantity.const 5).constant? = some 5 ∧
      (Quantity.const 2).constant? = some 2 ∧ 1 ≤ (2 : Int64).toInt ∧ 0 ≤ (1 : Int64).toInt ∧
      (1 : Int64).toInt < exclusiveEnd 5 false ∧ exclusiveEnd 5 false ≤ (5 : Int64).toInt ∧
      ∃ part, fiveQubits.sliceWith (.const 1) (.const 5) (.const 2) false = .ok part ∧
        ((positions 1 5 2).card : Int) = (part.size.value truncating fun _ => 0).toInt := by
  refine ⟨fun _ _ => rfl, constant?_size_fiveQubits, rfl, rfl, rfl, by decide, by decide, by decide,
    by decide, ?_⟩
  obtain ⟨part, hpart, hcard⟩ := @size_sliceWith fiveQubits (.const 1) (.const 5) (.const 2) false
    5 1 5 2 truncating (fun _ => 0) (fun _ _ => rfl) constant?_size_fiveQubits rfl rfl rfl
    (by decide) (by decide) (by decide) (by decide)
  refine ⟨part, hpart, ?_⟩
  rwa [if_pos (.inr (by decide)), add_zero] at hcard

/-- The first, third and fifth of five qubits are three, but the size of the slice is two. -/
theorem size_sliceWith_oddSpan :
    ∃ part, fiveQubits.sliceWith (.const 0) (.const 5) (.const 2) false = .ok part ∧
      (part.size.value truncating fun _ => 0) = 2 ∧ (positions 0 5 2).card = 3 := by
  refine ⟨.strided fiveQubits (.const 0) (.const 5) (.const 2), ?_, ?_, by decide⟩
  · exact (sliceWith_eq_ok_iff rfl constant?_size_fiveQubits rfl rfl rfl).2
      ⟨by decide, by decide, by decide, .inr ⟨by decide, by decide, rfl⟩⟩
  · rw [size, Quantity.value_div (fun _ _ => rfl) rfl rfl]
    rfl

end Qubits

end QuantumLowering
