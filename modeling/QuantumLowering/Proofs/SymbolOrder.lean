/-
  The order of symbols is linear.

  * `Symbol.compare_swap`: the order of the symbols is the same from both sides.
  * `Symbol.compare_lt_trans`: it is transitive.
  * `Symbol.comparePoly_eq_compare`: inside a symbol, polynomials are compared as they are outside.
  * `orderLaws_compare`: the laws of a linear order, for symbols and what is made of them.

  Symbols contain polynomials and so lists of terms, factors and arguments; the first two statements
  are proved for all of these at once.
-/
import QuantumLowering.Proofs.EntryOrder
import QuantumLowering.Symbol.Equality

namespace QuantumLowering

/-! ## The order from both sides -/

theorem BinOp.compare_swap (o o' : BinOp) : compare o o' = (compare o' o).swap := by
  cases o <;> cases o' <;> rfl

namespace Symbol

mutual
/-- The order of the symbols is the same from both sides. -/
theorem compare_swap : ∀ s t : Symbol, s.compare t = (t.compare s).swap
  | .named _, .named _ => by
    rw [compare, compare]
    exact Std.OrientedCmp.eq_swap
  | .named _, .binary .. | .named _, .call .. | .binary .., .named _ | .call .., .named _
  | .binary .., .call .. | .call .., .binary .. => by simp [compare]
  | .binary o p q, .binary o' p' q' => by
    simp only [compare, Ordering.swap_then, ← BinOp.compare_swap o o', ← comparePoly_swap p p',
      ← comparePoly_swap q q']
  | .call f ps, .call g qs => by
    simp only [compare, Ordering.swap_then, ← Std.OrientedOrd.eq_swap (a := f) (b := g),
      ← compareArgs_swap ps qs]

/-- `compare_swap` on polynomials. -/
theorem comparePoly_swap : ∀ p q : Polynomial Symbol, comparePoly p q = (comparePoly q p).swap
  | ⟨ts⟩, ⟨us⟩ => by
    rw [comparePoly, comparePoly]
    exact compareTerms_swap ts us

/-- `compare_swap` on lists of terms. -/
theorem compareTerms_swap :
    ∀ ts us : List (Monomial Symbol), compareTerms ts us = (compareTerms us ts).swap
  | [], [] | [], _ :: _ | _ :: _, [] => by simp [compareTerms]
  | ⟨⟨m⟩, c⟩ :: ts, ⟨⟨n⟩, d⟩ :: us => by
    simp only [compareTerms, Ordering.swap_then, ← compareFactors_swap m n,
      ← Std.OrientedOrd.eq_swap (a := c) (b := d), ← compareTerms_swap ts us]

/-- `compare_swap` on lists of factors. -/
theorem compareFactors_swap :
    ∀ m n : List (Symbol × UInt32), compareFactors m n = (compareFactors n m).swap
  | [], [] | [], _ :: _ | _ :: _, [] => by simp [compareFactors]
  | (s, d) :: m, (t, e) :: n => by
    simp only [compareFactors, Ordering.swap_then, ← compare_swap s t,
      ← Std.OrientedOrd.eq_swap (a := d) (b := e), ← compareFactors_swap m n]

/-- `compare_swap` on argument lists. -/
theorem compareArgs_swap :
    ∀ ps qs : List (Polynomial Symbol), compareArgs ps qs = (compareArgs qs ps).swap
  | [], [] | [], _ :: _ | _ :: _, [] => by simp [compareArgs]
  | p :: ps, q :: qs => by
    simp only [compareArgs, Ordering.swap_then, ← comparePoly_swap p q, ← compareArgs_swap ps qs]
end

end Symbol

instance : Std.OrientedOrd Symbol := ⟨fun {s t} => Symbol.compare_swap s t⟩

/-! ## Transitivity -/

/-- The first parts decide unless they are equal. -/
theorem then_lt_trans {α : Type} {cmp : α → α → Ordering} {a b c : α} {o₁ o₂ o₃ : Ordering}
    (heq : ∀ {a b}, cmp a b = .eq → a = b) (hcmp : cmp a b = .lt → cmp b c = .lt → cmp a c = .lt)
    (ho : o₁ = .lt → o₂ = .lt → o₃ = .lt) (h₁ : (cmp a b).then o₁ = .lt)
    (h₂ : (cmp b c).then o₂ = .lt) : (cmp a c).then o₃ = .lt := by
  rw [Ordering.then_eq_lt] at h₁ h₂ ⊢
  rcases h₁ with hab | ⟨hab, h₁⟩
  · rcases h₂ with hbc | ⟨hbc, -⟩
    · exact .inl (hcmp hab hbc)
    · exact .inl (heq hbc ▸ hab)
  · obtain rfl := heq hab
    exact h₂.imp_right fun ⟨hbc, h₂⟩ => ⟨hbc, ho h₁ h₂⟩

/-- A comparison of which only `.lt` has to be chained. -/
theorem transCmp_of_lt_trans {α : Type} {cmp : α → α → Ordering} [Std.OrientedCmp cmp]
    (heq : ∀ {a b}, cmp a b = .eq → a = b)
    (h : ∀ {a b c}, cmp a b = .lt → cmp b c = .lt → cmp a c = .lt) : Std.TransCmp cmp where
  isLE_trans {a b c} hab hbc := by
    rw [Ordering.isLE_iff_eq_lt_or_eq_eq] at hab hbc ⊢
    rcases hab with hab | hab
    · rcases hbc with hbc | hbc
      · exact .inl (h hab hbc)
      · exact .inl (heq hbc ▸ hab)
    · rwa [heq hab]

theorem BinOp.compare_lt_trans {o o' o'' : BinOp} :
    compare o o' = .lt → compare o' o'' = .lt → compare o o'' = .lt := by
  cases o <;> cases o' <;> cases o'' <;> decide

namespace Symbol

mutual
/-- The order of the symbols is transitive. -/
theorem compare_lt_trans : ∀ {s t u : Symbol}, s.compare t = .lt → t.compare u = .lt →
    s.compare u = .lt
  | .named _, .named _, .named _, h, k => by
    rw [compare] at h k ⊢
    exact Std.TransCmp.lt_trans h k
  -- of two symbols of different kinds the kinds decide, whatever lies in between
  | .named _, _, .binary .., _, _ | .named _, _, .call .., _, _ | .binary .., _, .call .., _, _ => by
    simp [compare]
  | .binary .., .binary .., .binary .., h, k => by
    rw [compare] at h k ⊢
    exact then_lt_trans BinOp.compare_eq_iff.1 BinOp.compare_lt_trans
      (then_lt_trans comparePoly_eq_iff.1 comparePoly_lt_trans comparePoly_lt_trans) h k
  | .call .., .call .., .call .., h, k => by
    rw [compare] at h k ⊢
    exact then_lt_trans Std.LawfulEqCmp.eq_of_compare Std.TransCmp.lt_trans compareArgs_lt_trans h k
  | .named _, .binary .., .named _, _, k | .named _, .call .., .named _, _, k
  | .binary .., .binary .., .named _, _, k | .binary .., .call .., .named _, _, k
  | .binary .., .call .., .binary .., _, k | .call .., .call .., .named _, _, k
  | .call .., .call .., .binary .., _, k => by simp [compare] at k
  | .binary .., .named _, _, h, _ | .call .., .named _, _, h, _
  | .call .., .binary .., _, h, _ => by simp [compare] at h

/-- `compare_lt_trans` on polynomials. -/
theorem comparePoly_lt_trans : ∀ {p q r : Polynomial Symbol}, comparePoly p q = .lt →
    comparePoly q r = .lt → comparePoly p r = .lt
  | ⟨_⟩, ⟨_⟩, ⟨_⟩, h, k => by
    rw [comparePoly] at h k ⊢
    exact compareTerms_lt_trans h k

/-- `compare_lt_trans` on lists of terms. -/
theorem compareTerms_lt_trans : ∀ {ts us vs : List (Monomial Symbol)},
    compareTerms ts us = .lt → compareTerms us vs = .lt → compareTerms ts vs = .lt
  | [], _, _ :: _, _, _ => by rw [compareTerms]
  | ⟨⟨_⟩, _⟩ :: _, ⟨⟨_⟩, _⟩ :: _, ⟨⟨_⟩, _⟩ :: _, h, k => by
    rw [compareTerms] at h k ⊢
    exact then_lt_trans compareFactors_eq_iff.1 compareFactors_lt_trans
      (then_lt_trans Std.LawfulEqCmp.eq_of_compare Std.TransCmp.lt_trans compareTerms_lt_trans) h k
  | [], [], [], h, _ | _ :: _, [], _, h, _ => by simp [compareTerms] at h
  | _, _ :: _, [], _, k => by simp [compareTerms] at k

/-- `compare_lt_trans` on lists of factors. -/
theorem compareFactors_lt_trans : ∀ {l m n : List (Symbol × UInt32)},
    compareFactors l m = .lt → compareFactors m n = .lt → compareFactors l n = .lt
  | [], _, _ :: _, _, _ => by rw [compareFactors]
  | (_, _) :: _, (_, _) :: _, (_, _) :: _, h, k => by
    rw [compareFactors] at h k ⊢
    exact then_lt_trans compare_eq_iff.1 compare_lt_trans
      (then_lt_trans Std.LawfulEqCmp.eq_of_compare Std.TransCmp.lt_trans compareFactors_lt_trans) h k
  | [], [], [], h, _ | _ :: _, [], _, h, _ => by simp [compareFactors] at h
  | _, _ :: _, [], _, k => by simp [compareFactors] at k

/-- `compare_lt_trans` on argument lists. -/
theorem compareArgs_lt_trans : ∀ {ps qs rs : List (Polynomial Symbol)},
    compareArgs ps qs = .lt → compareArgs qs rs = .lt → compareArgs ps rs = .lt
  | [], _, _ :: _, _, _ => by rw [compareArgs]
  | _ :: _, _ :: _, _ :: _, h, k => by
    rw [compareArgs] at h k ⊢
    exact then_lt_trans comparePoly_eq_iff.1 comparePoly_lt_trans compareArgs_lt_trans h k
  | [], [], [], h, _ | _ :: _, [], _, h, _ => by simp [compareArgs] at h
  | _, _ :: _, [], _, k => by simp [compareArgs] at k
end

end Symbol

instance : Std.TransOrd Symbol :=
  transCmp_of_lt_trans Symbol.compare_eq_iff.1 Symbol.compare_lt_trans

/-! ## Polynomials inside symbols -/

namespace Symbol

theorem compareFactors_eq : ∀ m n : List (Symbol × UInt32),
    compareFactors m n = PowerProduct.compareFactors m n
  | [], [] | [], _ :: _ | _ :: _, [] => by simp [compareFactors, PowerProduct.compareFactors]
  | (s, d) :: m, (t, e) :: n => by
    rw [compareFactors, PowerProduct.compareFactors, compareFactors_eq m n]
    rfl

theorem compareTerms_eq : ∀ ts us : List (Monomial Symbol),
    compareTerms ts us = Polynomial.compareTerms ts us
  | [], [] | [], _ :: _ | _ :: _, [] => by simp [compareTerms, Polynomial.compareTerms]
  | ⟨⟨m⟩, c⟩ :: ts, ⟨⟨n⟩, d⟩ :: us => by
    rw [compareTerms, Polynomial.compareTerms, compareFactors_eq m n, compareTerms_eq ts us]
    rfl

/-- Inside a symbol, polynomials are compared as they are outside. -/
theorem comparePoly_eq_compare (p q : Poly) : comparePoly p q = Ord.compare p q := by
  rw [comparePoly]
  exact compareTerms_eq ..

end Symbol

/-! ## The laws of the order -/

/-- The laws of a linear order: `isLE` says that the first value is at most the second. -/
structure OrderLaws {α : Type} (cmp : α → α → Ordering) : Prop where
  total : ∀ a b, (cmp a b).isLE ∨ (cmp b a).isLE
  antisymm : ∀ a b, (cmp a b).isLE → (cmp b a).isLE → a = b
  trans : ∀ a b c, (cmp a b).isLE → (cmp b c).isLE → (cmp a c).isLE
  swap : ∀ a b, cmp b a = (cmp a b).swap
  eq_iff : ∀ a b, cmp a b = .eq ↔ a = b

namespace OrderLaws

variable {α β : Type} {cmp : α → α → Ordering}

theorem of_lawful [Std.TransCmp cmp] [Std.LawfulEqCmp cmp] : OrderLaws cmp where
  total a b := by
    have hswap : cmp b a = (cmp a b).swap := Std.OrientedCmp.eq_swap
    rw [hswap]
    cases cmp a b <;> simp
  antisymm a b hab hba := Std.LawfulEqCmp.eq_of_compare (Std.OrientedCmp.isLE_antisymm hab hba)
  trans a b c := Std.TransCmp.isLE_trans
  swap a b := Std.OrientedCmp.eq_swap
  eq_iff a b := Std.LawfulEqCmp.compare_eq_iff_eq

/-- The laws pass to the values that are compared by a part that makes them up. -/
theorem comap (h : OrderLaws cmp) {f : β → α} (hf : ∀ a b, f a = f b → a = b) :
    OrderLaws fun a b => cmp (f a) (f b) where
  total a b := h.total (f a) (f b)
  antisymm a b hab hba := hf a b (h.antisymm _ _ hab hba)
  trans a b c := h.trans (f a) (f b) (f c)
  swap a b := h.swap (f a) (f b)
  eq_iff a b := (h.eq_iff _ _).trans ⟨hf a b, congrArg f⟩

end OrderLaws

/-- **The canonical order is linear.**  The laws hold for the names of unknowns, for symbols, for
    operations and calls among each other, for power products and for polynomials, however deeply
    these contain one another; and polynomials inside symbols are in the same order as outside. -/
theorem orderLaws_compare :
    OrderLaws (compare : String → String → Ordering) ∧
      OrderLaws (compare : Symbol → Symbol → Ordering) ∧
      OrderLaws (fun s t : { s : Symbol // ∀ x, s ≠ .named x } => compare s.1 t.1) ∧
      OrderLaws (compare : PowerProduct Symbol → PowerProduct Symbol → Ordering) ∧
      OrderLaws (compare : Poly → Poly → Ordering) ∧
      ∀ p q : Poly, Symbol.comparePoly p q = compare p q := by
  have hsymbol : OrderLaws (compare : Symbol → Symbol → Ordering) := .of_lawful
  have hoperation := hsymbol.comap (f := fun s : { s : Symbol // ∀ x, s ≠ .named x } => s.1)
    fun s t => Subtype.ext
  exact ⟨.of_lawful, hsymbol, hoperation, .of_lawful, .of_lawful, Symbol.comparePoly_eq_compare⟩

end QuantumLowering
