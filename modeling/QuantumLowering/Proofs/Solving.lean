/-
  Solving a size for its hidden unknown.

  * `Quantity.weigh_subst_of_linearIn?`: what `c + k * x` weighs with something in place of `x`.
  * `Quantity.not_surelyDiffers_of_solve?`: with the solution in place of the unknown, the size
    does not surely differ from what it was solved for.

  Where the division is exact the two are equal.  Otherwise the solution is an operation that
  stays symbolic; it contains the other side and so does not occur in it.
-/
import QuantumLowering.Proofs.Evaluation

namespace QuantumLowering

/-- Putting factors in order loses none. -/
theorem PowerProduct.isOne_one_mul {σ : Type} [Ord σ] {m : PowerProduct σ} :
    (one.mul m).isOne = m.isOne := by
  obtain ⟨_ | ⟨f, m⟩⟩ := m
  · rfl
  · rw [mul_cons, isOne, isOne]
    generalize (one.mul ⟨m⟩).factors = l
    cases l with
    | nil => rfl
    | cons g l => rw [insertPower]; split <;> rfl

namespace Polynomial

variable {σ : Type} {p : Polynomial σ}

@[simp] theorem constant?_const {c : Int64} : (const c : Polynomial σ).constant? = some c := by
  unfold const
  split <;> simp_all [constant?, PowerProduct.isOne, PowerProduct.one]

/-- Whether there are no symbols does not depend on the signs of the terms. -/
theorem isSome_constant?_negate {ts : List (Monomial σ)} :
    (constant? ⟨ts.map fun t => (⟨t.powers, -t.coefficient⟩ : Monomial σ)⟩).isSome =
      (constant? ⟨ts⟩).isSome := by
  match ts with
  | [] | _ :: _ :: _ => rfl
  | [t] => simp only [constant?, List.map_cons, List.map_nil]; split <;> rfl

variable [Ord σ]

theorem addTerms_nil {ts : List (Monomial σ)} : addTerms ts [] = ts := by
  induction ts with
  | nil => rfl
  | cons t ts ih => rw [addTerms, place, ih]

/-- The two differences with a constant have the same terms with opposite signs, whatever the
    order of the terms. -/
theorem terms_const_sub {c : Int64} :
    (const c - p).terms =
      (p - const c).terms.map fun t : Monomial σ => (⟨t.powers, -t.coefficient⟩ : Monomial σ) := by
  obtain ⟨ts⟩ := p
  change addTerms (const c).terms (ts.map _) = (addTerms ts ((const c).terms.map _)).map _
  by_cases hc : c = 0
  · subst hc
    simp [const, addTerms, addTerms_nil]
  have hconst : (const c : Polynomial σ).terms = [⟨.one, c⟩] := by simp [const, hc]
  rw [hconst]
  rcases ts with _ | ⟨⟨⟨_ | ⟨f, m⟩⟩, d⟩, ts⟩
  · simp [addTerms, place]
  · have heq : compare (PowerProduct.one : PowerProduct σ) ⟨[]⟩ = .eq := rfl
    have heq' : compare (⟨[]⟩ : PowerProduct σ) PowerProduct.one = .eq := rfl
    have hsum : c + -d = 0 ↔ d + -c = 0 := by grind
    simp only [List.map_cons, List.map_nil, addTerms, place, heq, heq', hsum]
    split
    · simp [addTerms_nil]
    · simp [addTerms_nil, PowerProduct.one]; grind
  · have hlt : compare (PowerProduct.one : PowerProduct σ) ⟨f :: m⟩ = .lt := rfl
    have hgt : compare (⟨f :: m⟩ : PowerProduct σ) PowerProduct.one = .gt := rfl
    simp [addTerms, place, hlt, hgt, addTerms_nil]

theorem isSome_constant?_sub_comm {c : Int64} :
    (const c - p).constant?.isSome = (p - const c).constant?.isSome := by
  have : const c - p = ⟨(const c - p).terms⟩ := rfl
  rw [this, terms_const_sub, isSome_constant?_negate]

/-! ## Occurrences -/

/-- The symbol is a factor of some term. -/
def Occurs (s : σ) (p : Polynomial σ) : Prop := ∃ t ∈ p.terms, ∃ e, (s, e) ∈ t.powers.factors

omit [Ord σ] in
/-- A value depends on the symbols that occur only. -/
theorem eval_congr {ρ ρ' : σ → Int64} (h : ∀ s, p.Occurs s → ρ s = ρ' s) :
    p.eval ρ = p.eval ρ' := by
  have hfactors : ∀ m : List (σ × UInt32), (∀ f ∈ m, ρ f.1 = ρ' f.1) →
      PowerProduct.evalFactors ρ m = PowerProduct.evalFactors ρ' m := by
    intro m hm
    induction m with
    | nil => rfl
    | cons f m ih =>
      simp only [PowerProduct.evalFactors, hm f (by simp), ih fun g hg => hm g (by simp [hg])]
  have hterms : ∀ ts : List (Monomial σ),
      (∀ t ∈ ts, ∀ f ∈ t.powers.factors, ρ f.1 = ρ' f.1) → evalTerms ρ ts = evalTerms ρ' ts := by
    intro ts hts
    induction ts with
    | nil => rfl
    | cons t ts ih =>
      simp only [evalTerms_cons, Monomial.eval, PowerProduct.eval, hfactors _ (hts t (by simp)),
        ih fun u hu => hts u (by simp [hu])]
  exact hterms p.terms fun t ht f hf => h f.1 ⟨t, ht, f.2, hf⟩

/-- Adding a constant leaves all other terms in place. -/
theorem mem_addTerms_const {t : Monomial σ} (hne : t.powers.factors ≠ []) :
    ∀ {ts us : List (Monomial σ)}, t ∈ ts → (us = [] ∨ ∃ c, us = [⟨.one, c⟩]) →
      t ∈ addTerms ts us
  | u :: ts, us, ht, hus => by
    have hrest : t ∈ ts → ∀ {us : List (Monomial σ)}, (us = [] ∨ ∃ c, us = [⟨.one, c⟩]) →
        t ∈ addTerms ts us := fun ht _ hus => mem_addTerms_const hne ht hus
    rw [addTerms]
    rcases hus with rfl | ⟨c, rfl⟩
    · rw [place]
      exact (List.mem_cons.1 ht).elim (fun h => by simp [h]) fun h =>
        List.mem_cons_of_mem _ (hrest h (.inl rfl))
    · rcases u with ⟨⟨_ | ⟨f, m⟩⟩, d⟩
      · have heq : compare (⟨[]⟩ : PowerProduct σ) PowerProduct.one = .eq := rfl
        have ht : t ∈ ts := (List.mem_cons.1 ht).resolve_left fun h => hne (by rw [h])
        simp only [place, heq]
        split
        · exact hrest ht (.inl rfl)
        · exact List.mem_cons_of_mem _ (hrest ht (.inl rfl))
      · have hgt : compare (⟨f :: m⟩ : PowerProduct σ) PowerProduct.one = .gt := rfl
        simp only [place, hgt]
        refine List.mem_cons_of_mem _ ?_
        exact (List.mem_cons.1 ht).elim (fun h => by simp [h]) fun h =>
          List.mem_cons_of_mem _ (hrest h (.inl rfl))

theorem occurs_sub_const {s : σ} {c : Int64} (h : p.Occurs s) : (p - const c).Occurs s := by
  obtain ⟨t, ht, e, he⟩ := h
  refine ⟨t, mem_addTerms_const (List.ne_nil_of_mem he) ht ?_, e, he⟩
  unfold const
  split
  · exact .inl rfl
  · exact .inr ⟨-c, rfl⟩

omit [Ord σ] in
theorem sizeOf_lt_of_occurs [SizeOf σ] {s : σ} (h : p.Occurs s) : sizeOf s < sizeOf p := by
  obtain ⟨⟨⟨m⟩, c⟩, ht, e, he⟩ := h
  obtain ⟨ts⟩ := p
  have h₁ := List.sizeOf_lt_of_mem ht
  have h₂ := List.sizeOf_lt_of_mem he
  simp only [Monomial.mk.sizeOf_spec, PowerProduct.mk.sizeOf_spec, Prod.mk.sizeOf_spec,
    Polynomial.mk.sizeOf_spec] at h₁ h₂ ⊢
  omega

end Polynomial

namespace Quantity

variable {a rhs v : Quantity} {x : String} {c k : Int64} {ρ : Symbol → Int64}

@[simp] theorem constant?_const {c : Int64} : (const c).constant? = some c :=
  Polynomial.constant?_const

/-- The terms of a quantity of the form `c + k * x`. -/
theorem linearIn?_eq_some (h : a.linearIn? x = some (c, k)) :
    (c = 0 ∧ a.poly.terms = [⟨⟨[(.named x, 1)]⟩, k⟩]) ∨
      a.poly.terms = [⟨.one, c⟩, ⟨⟨[(.named x, 1)]⟩, k⟩] := by
  have slope : ∀ {t}, linearIn?.slope? x t = some k → t = ⟨⟨[(.named x, 1)]⟩, k⟩ := by
    rintro ⟨⟨m⟩, d⟩ ht
    simp only [linearIn?.slope?] at ht
    split at ht
    · rename_i n hn
      split at ht
      · rename_i hx
        subst hx
        obtain rfl := Option.some.inj ht
        simp only [PowerProduct.linearSymbol?] at hn
        split at hn
        · rename_i hm
          simp_all
        · simp at hn
      · simp at ht
    · simp at ht
  unfold linearIn? at h
  split at h
  · rename_i t ht
    simp only [Option.map_eq_some_iff, Prod.mk.injEq] at h
    obtain ⟨_, h, rfl, rfl⟩ := h
    exact .inl ⟨rfl, by rw [ht, slope h]⟩
  · rename_i s t ht
    split at h
    · rename_i hs
      simp only [Option.map_eq_some_iff, Prod.mk.injEq] at h
      obtain ⟨_, h, rfl, rfl⟩ := h
      obtain ⟨⟨m⟩, d⟩ := s
      obtain rfl := List.isEmpty_iff.1 hs
      exact .inr (by rw [ht, slope h, PowerProduct.one])
    · simp at h
  · simp at h

/-- With something in place of `x`, each of its power products is multiplied by `1` twice.  That
    puts the factors in order, and only where a symbol is among them twice it is more than that. -/
theorem weigh_subst_of_linearIn? {w : PowerProduct Symbol → Int64}
    (h : a.linearIn? x = some (c, k)) :
    Polynomial.weigh w (a.subst x v).poly.terms =
      c * w .one + k * Polynomial.weigh (fun m => w (.mul .one (.mul .one m))) v.poly.terms := by
  have hone (m : PowerProduct Symbol) : m.mul .one = m := rfl
  have hterms := linearIn?_eq_some h
  obtain ⟨⟨ts⟩, l⟩ := a
  rcases hterms with ⟨rfl, rfl⟩ | rfl <;>
    simp [subst, Polynomial.subst, Symbol.substPoly, Symbol.substTerms, Symbol.substFactors,
      Symbol.subst, Polynomial.pow, Polynomial.powLoop, Polynomial.weigh_add, Polynomial.weigh_mul,
      Polynomial.weigh_const, Polynomial.zero, PowerProduct.one]

/-- A solution is the quotient that the form `c + k * x` asks for. -/
theorem solve?_eq_some (h : a.solve? rhs x = some v) :
    ∃ c k, a.linearIn? x = some (c, k) ∧ v = (rhs - const c) / const k ∧
      ∀ r, (rhs - const c).constant? = some r → r % k = 0 := by
  unfold solve? at h
  split at h
  · simp at h
  · rename_i c k hlin
    dsimp only at h
    split at h
    · rename_i r hr
      split at h
      · rename_i hmod
        refine ⟨c, k, hlin, (Option.some.inj h).symm, fun r' hr' => ?_⟩
        obtain rfl : r = r' := by simpa [hr] using hr'
        exact hmod
      · simp at h
    · rename_i hr
      exact ⟨c, k, hlin, (Option.some.inj h).symm, by simp [hr]⟩

theorem poly_div_const (a : Quantity) (k : Int64) :
    (a / const k).poly =
      (a.poly.divExact? k).getD (.ofSymbol (.binary .div a.poly (const k).poly)) := by
  change ((const k).poly.constant?.bind a.poly.divExact?).getD _ = _
  rw [show (const k).poly.constant? = some k from Polynomial.constant?_const, Option.bind_some]

/-- A quotient by a constant is exact, or else an operation on its own. -/
theorem div_const_cases (a : Quantity) (k : Int64) :
    (∀ w, Polynomial.weigh w (a / const k).poly.terms * k = Polynomial.weigh w a.poly.terms) ∨
      (a / const k).poly = .ofSymbol (.binary .div a.poly (const k).poly) := by
  cases hq : a.poly.divExact? k with
  | none => exact .inr (by rw [poly_div_const, hq, Option.getD_none])
  | some q =>
    refine .inl fun w => ?_
    rw [poly_div_const, hq, Option.getD_some]
    exact Polynomial.weigh_of_divExact? hq

/-- An exact quotient undoes the multiplication.  This is seen from the constants of both sides,
    which stay what they are when the factors are put in order. -/
theorem not_surelyDiffers_of_exact (hlin : a.linearIn? x = some (c, k))
    (hdiv : ∀ w, Polynomial.weigh w ((rhs - const c) / const k).poly.terms * k =
      Polynomial.weigh w (rhs - const c).poly.terms) :
    (a.subst x ((rhs - const c) / const k)).surelyDiffers rhs = false := by
  let w (m : PowerProduct Symbol) : Int64 := if m.isOne then 1 else 0
  have hone (m : PowerProduct Symbol) : w (.mul .one m) = w m := by
    simp only [w, PowerProduct.isOne_one_mul]
  refine not_surelyDiffers_of_weigh_eq (w := w) rfl ?_
  rw [weigh_subst_of_linearIn? hlin]
  simp only [hone]
  have hconst : Polynomial.weigh w (const c).poly.terms = c * w .one := Polynomial.weigh_const
  rw [Int64.mul_comm k, hdiv, weigh_sub, hconst]
  grind

/-- A quotient that stays symbolic does not occur in what is divided, so its value can be changed
    alone. -/
theorem not_surelyDiffers_of_symbolic (hlin : a.linearIn? x = some (c, k)) (hk : k ≠ 0)
    (hdiv : ((rhs - const c) / const k).poly =
      .ofSymbol (.binary .div (rhs - const c).poly (const k).poly)) :
    (a.subst x ((rhs - const c) / const k)).surelyDiffers rhs = false := by
  unfold surelyDiffers
  split
  · rename_i d hd
    let n : Symbol := .binary .div (rhs - const c).poly (const k).poly
    have hsubst (ρ : Symbol → Int64) :
        (a.subst x ((rhs - const c) / const k)).eval ρ = c + k * ρ n := by
      have hsymbol : PowerProduct.eval ρ (.mul .one (.mul .one (.ofSymbol n))) = ρ n :=
        PowerProduct.eval_ofSymbol n
      rw [eval, Polynomial.eval, Polynomial.evalTerms_eq_weigh, weigh_subst_of_linearIn? hlin, hdiv]
      simp [Polynomial.ofSymbol, hsymbol, n]
    have hval : ∀ ρ, c + k * ρ n - rhs.eval ρ = d := by
      intro ρ
      rw [← eval_of_constant? hd (ρ := ρ), eval_sub, hsubst]
    have hsame : rhs.eval (fun s => if sizeOf s < sizeOf n then 0 else 1) =
        rhs.eval fun _ => 0 := by
      refine Polynomial.eval_congr fun s hs => ?_
      have hlt := Polynomial.sizeOf_lt_of_occurs (Polynomial.occurs_sub_const hs (c := c))
      have hn : sizeOf (rhs.poly - .const c) < sizeOf n := by
        change sizeOf (rhs - const c).poly < _
        simp only [n, Symbol.binary.sizeOf_spec]
        omega
      simp [Nat.lt_trans hlt hn]
    have h₀ := hval fun _ => 0
    have h₁ := hval fun s => if sizeOf s < sizeOf n then 0 else 1
    rw [hsame] at h₁
    simp at h₀ h₁
    exact absurd (by grind) hk
  · rfl

/-- Without a multiple of the unknown, the size is the constant that is not the right side. -/
theorem not_surelyDiffers_of_zero (hlin : a.linearIn? x = some (c, 0))
    (hr : ∀ r, (rhs - const c).constant? = some r → r = 0) :
    (a.subst x v).surelyDiffers rhs = false := by
  have hsubst : (a.subst x v).poly = .const c := by
    have hmul : ∀ q : Poly, Polynomial.const 0 * q = Polynomial.zero := fun _ => rfl
    have hterms := linearIn?_eq_some hlin
    obtain ⟨⟨ts⟩, l⟩ := a
    rcases hterms with ⟨rfl, rfl⟩ | rfl
    · rfl
    · simp only [subst, Polynomial.subst, Symbol.substPoly, Symbol.substTerms, Symbol.substFactors,
        PowerProduct.one, hmul]
      exact congrArg Polynomial.mk Polynomial.addTerms_nil
  cases hrest : (rhs - const c).constant? with
  | none =>
    have hsome : (a.subst x v - rhs).constant?.isSome = false := by
      change (Polynomial.constant? ((subst ..).poly - rhs.poly)).isSome = false
      rw [hsubst, Polynomial.isSome_constant?_sub_comm]
      exact congrArg Option.isSome hrest
    rw [Option.isSome_eq_false_iff, Option.isNone_iff_eq_none] at hsome
    rw [surelyDiffers, hsome]
  | some r =>
    refine not_surelyDiffers_of_eval_eq (ρ := fun _ => 0) ?_
    have hvalue := eval_of_constant? hrest (ρ := fun _ => 0)
    rw [hr r hrest, eval_sub, eval_const] at hvalue
    rw [eval, hsubst, Polynomial.eval_const]
    grind

/-- **A size with the solution in place of its unknown does not surely differ from what it was
    solved for.** -/
theorem not_surelyDiffers_of_solve? (h : a.solve? rhs x = some v) :
    (a.subst x v).surelyDiffers rhs = false := by
  obtain ⟨c, k, hlin, rfl, hmod⟩ := solve?_eq_some h
  rcases div_const_cases (rhs - const c) k with hexact | hdiv
  · exact not_surelyDiffers_of_exact hlin hexact
  by_cases hk : k = 0
  · subst hk
    -- a remainder that zero leaves undivided is zero itself
    exact not_surelyDiffers_of_zero hlin fun r hr => by simpa using hmod r hr
  · exact not_surelyDiffers_of_symbolic hlin hk hdiv

end Quantity

end QuantumLowering
