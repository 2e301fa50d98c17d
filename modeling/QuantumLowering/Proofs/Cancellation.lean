/-
  Sums from which one of the parts is taken away again.

  * `Polynomial.addTerms_cancel`: terms that are added to others and subtracted again leave the
    others as they were, if the two have no power product in common.  The lists need not be
    sorted: both times the merge makes the same choices.
  * `Quantity.mentions_copySpan`: the span from one multiple of an unknown to the next mentions what
    the factor mentions, and so not this unknown.
-/
import QuantumLowering.Proofs.Solving
import QuantumLowering.Proofs.SymbolOrder
import QuantumLowering.Proofs.Unknowns

namespace QuantumLowering

variable {σ : Type} [Ord σ] [Std.OrientedOrd σ]

/-! ## Adding and taking away -/

namespace Polynomial

variable {t : Monomial σ} {ts us : List (Monomial σ)}

/-- A term and its negative in front of two lists disappear. -/
theorem addTerms_cons_negate :
    addTerms (t :: ts) (⟨t.powers, -t.coefficient⟩ :: us) = addTerms ts us := by
  simp [addTerms, place, Int64.add_right_neg]

/-- Terms that are added and subtracted again leave the others as they were. -/
theorem addTerms_cancel [Std.LawfulEqOrd σ] (h : ∀ t ∈ ts, ∀ u ∈ us, t.powers ≠ u.powers) :
    addTerms (addTerms ts us) (ts.map fun t => ⟨t.powers, -t.coefficient⟩) = us := by
  induction ts generalizing us with
  | nil => exact addTerms_nil
  | cons t ts ih =>
    rw [List.map_cons, addTerms]
    induction us with
    | nil =>
      rw [place, addTerms_cons_negate]
      exact ih fun _ _ u hu => absurd hu List.not_mem_nil
    | cons u us ihu =>
      rw [place]
      split
      · rw [addTerms_cons_negate]
        exact ih fun t ht => h t (List.mem_cons_of_mem _ ht)
      · rename_i heq
        exact absurd (Std.LawfulEqCmp.eq_of_compare heq) (h t List.mem_cons_self u List.mem_cons_self)
      · -- the other term comes first, and does so again when the terms are taken away
        rename_i hgt
        have hlt : compare u.powers t.powers = .lt := Std.OrientedCmp.gt_iff_lt.1 hgt
        have hrest := ihu fun t ht v hv => h t ht v (List.mem_cons_of_mem _ hv)
        rw [addTerms, place, hlt]
        exact congrArg (u :: ·) hrest

end Polynomial

/-- Consecutive multiples of an unknown that does not occur in the factor. -/
theorem Quantity.terms_copySpan {a : Quantity} {x : String} (hx : ¬ a.mentions x) :
    (a * named x + a - a * named x).poly.terms = a.poly.terms := by
  have hmultiple : Polynomial.Every (·.mentions x) (a.poly * Polynomial.named x).terms := by
    refine Polynomial.every_mul fun s _ t ht => ?_
    rw [PowerProduct.mentions_mul, List.mem_singleton.1 ht]
    simp [PowerProduct.mentions, PowerProduct.ofSymbol, Symbol.factorsMention, Symbol.mentions]
  refine Polynomial.addTerms_cancel fun t ht u hu heq => hx (Polynomial.mentions_iff.2 ⟨u, hu, ?_⟩)
  rw [← heq]
  exact hmultiple t ht

/-- The span from one multiple of an unknown to the next mentions what the factor mentions. -/
theorem Quantity.mentions_copySpan {a : Quantity} {x y : String} (hx : ¬ a.mentions x)
    (h : (a * named x + a - a * named x).mentions y) : a.mentions y := by
  obtain ⟨t, ht, hy⟩ := Polynomial.mentions_iff.1 h
  rw [terms_copySpan hx] at ht
  exact Polynomial.mentions_iff.2 ⟨t, ht, hy⟩

end QuantumLowering
