/-
  Polynomials in reduced form.

  * `Polynomial.Over P`: all symbols of a polynomial satisfy `P`.
  * `Symbol.induction`: what passes from the operands to a symbol, all symbols have.
  * `Symbol.Closed P`: operations that do not fold, and calls, satisfy `P` if their operands do.
    The results of the operators and of substitution are then over `P`.
  * `Polynomial.Reduced`: canonical at every depth, and without an operation that folds.
  * `Polynomial.Derived`: what the operations make from unknowns alone, `DeeplyBuilt` in general and
    `ExactlyBuilt` if all exponents fit.  It is reduced.
  * `Polynomial.Inside`: a polynomial at any depth of another one.
-/
import QuantumLowering.Proofs.RingLaws
import QuantumLowering.Proofs.Solving

namespace QuantumLowering

variable {σ : Type}

/-! ## Symbols of polynomials -/

/-- All symbols of a power product satisfy `P`. -/
def PowerProduct.Over (P : σ → Prop) (m : PowerProduct σ) : Prop := ∀ f ∈ m.factors, P f.1

/-- All symbols of a polynomial satisfy `P`. -/
def Polynomial.Over (P : σ → Prop) (p : Polynomial σ) : Prop :=
  Polynomial.Every (PowerProduct.Over P) p.terms

variable {P : σ → Prop}

namespace PowerProduct

theorem Over.one : (one : PowerProduct σ).Over P := fun _ h => absurd h List.not_mem_nil

theorem Over.ofSymbol {s : σ} (h : P s) : (ofSymbol s).Over P := List.forall_mem_singleton.2 h

theorem Over.mul [Ord σ] [Std.LawfulEqOrd σ] {m n : PowerProduct σ} (hm : m.Over P)
    (hn : n.Over P) : (m.mul n).Over P := by
  obtain ⟨n⟩ := n
  simp only [PowerProduct.mul]
  induction n with
  | nil => exact hm
  | cons f n ih =>
    obtain ⟨hf, hn⟩ := List.forall_mem_cons.1 hn
    exact forall_mem_insertPower (P := fun f => P f.1) hf (fun _ h => h) (ih hn)

end PowerProduct

namespace Polynomial

variable {p q : Polynomial σ}

theorem over_iff_occurs : p.Over P ↔ ∀ s, p.Occurs s → P s :=
  ⟨fun h _ ⟨t, ht, e, he⟩ => h t ht (_, e) he, fun h t ht f hf => h f.1 ⟨t, ht, f.2, hf⟩⟩

theorem Over.const {c : Int64} : (const c : Polynomial σ).Over P := by
  unfold Polynomial.const
  split
  · exact every_nil
  · exact List.forall_mem_singleton.2 .one

theorem Over.ofSymbol {s : σ} (h : P s) : (ofSymbol s).Over P :=
  List.forall_mem_singleton.2 (.ofSymbol h)

variable [Ord σ]

theorem Over.add (hp : p.Over P) (hq : q.Over P) : (p + q).Over P := every_add hp hq

theorem Over.sub (hp : p.Over P) (hq : q.Over P) : (p - q).Over P := every_sub hp hq

variable [Std.LawfulEqOrd σ]

theorem Over.mul (hp : p.Over P) (hq : q.Over P) : (p * q).Over P :=
  every_mul fun s hs t ht => (hp s hs).mul (hq t ht)

theorem Over.pow {e : Nat} (hp : p.Over P) : (p.pow e).Over P := pow_induction .const .mul hp

end Polynomial

/-! ## Symbols and their operands -/

namespace Symbol

variable {P : Symbol → Prop}

/-- Induction over the depth of a symbol. -/
@[elab_as_elim]
theorem induction (named : ∀ x, P (.named x))
    (binary : ∀ op p q, p.Over P → q.Over P → P (.binary op p q))
    (call : ∀ f args, (∀ a ∈ args, a.Over P) → P (.call f args)) (s : Symbol) : P s := by
  cases s with
  | named x => exact named x
  | binary op p q =>
    refine binary op p q (fun t ht f hf => ?_) fun t ht f hf => ?_
    · have := Polynomial.sizeOf_lt_of_occurs (p := p) ⟨t, ht, f.2, hf⟩
      exact induction named binary call f.1
    · have := Polynomial.sizeOf_lt_of_occurs (p := q) ⟨t, ht, f.2, hf⟩
      exact induction named binary call f.1
  | call g args =>
    refine call g args fun a ha t ht f hf => ?_
    have := List.sizeOf_lt_of_mem ha
    have := Polynomial.sizeOf_lt_of_occurs (p := a) ⟨t, ht, f.2, hf⟩
    exact induction named binary call f.1
termination_by sizeOf s
decreasing_by all_goals simp_wf; omega

theorem substArgs_eq_map {x : String} {v : Poly} {args : List Poly} :
    substArgs x v args = args.map fun a => substPoly x v a := by
  induction args with
  | nil => rw [substArgs, List.map_nil]
  | cons a args ih => rw [substArgs, ih, List.map_cons]

/-- Operations that do not fold and calls satisfy `P` if all symbols of their operands do. -/
structure Closed (P : Symbol → Prop) : Prop where
  binary : ∀ {op p q}, p.Canonical → p.Over P → q.Canonical → q.Over P →
    op.result? p q = none → P (.binary op p q)
  call : ∀ {f args}, (∀ a ∈ args, a.Canonical) → (∀ a ∈ args, a.Over P) → P (.call f args)

end Symbol

namespace Polynomial

variable {P : Symbol → Prop} {p q v : Poly} {x : String}

theorem Over.apply {op : BinOp} (hP : Symbol.Closed P) (hp : p.Canonical) (hpP : p.Over P)
    (hq : q.Canonical) (hqP : q.Over P) : (op.apply p q).Over P := by
  unfold BinOp.apply
  cases h : op.result? p q with
  | none => exact .ofSymbol (hP.binary hp hpP hq hqP h)
  | some r =>
    show r.Over P
    unfold BinOp.result? at h
    split at h
    · obtain ⟨d, -, hr⟩ := Option.bind_eq_some_iff.1 h
      exact every_divExact? hpP hr
    · obtain ⟨e, -, rfl⟩ := Option.map_eq_some_iff.1 h
      exact hpP.pow
    · simp only [Option.bind_eq_some_iff, Option.map_eq_some_iff] at h
      obtain ⟨-, -, -, -, -, -, rfl⟩ := h
      exact .const

theorem over_subst_of_symbols (h : p.Over fun s => (Symbol.subst x v s).Over P) :
    (p.subst x v).Over P := by
  have hfactors : ∀ (m : List (Symbol × UInt32)) {acc : Poly}, acc.Over P →
      (∀ f ∈ m, (Symbol.subst x v f.1).Over P) → (Symbol.substFactors x v acc m).Over P := by
    intro m
    induction m with
    | nil =>
      intro acc hacc _
      rw [Symbol.substFactors]
      exact hacc
    | cons f m ih =>
      intro acc hacc hm
      obtain ⟨hf, hm⟩ := List.forall_mem_cons.1 hm
      rw [Symbol.substFactors]
      exact ih (hacc.mul hf.pow) hm
  obtain ⟨ts⟩ := p
  rw [subst, Symbol.substPoly]
  induction ts with
  | nil => exact every_nil
  | cons t ts ih =>
    obtain ⟨ht, hts⟩ := List.forall_mem_cons.1 h
    rw [Symbol.substTerms]
    exact (hfactors _ .const ht).add (ih hts)

/-- Substitution introduces the symbols of `v`, and applies operators and functions again. -/
theorem over_substSymbol (hP : Symbol.Closed P) (hnamed : ∀ n, n ≠ x → P (.named n))
    (hv : v.Canonical) (hvP : v.Over P) : ∀ s, (Symbol.subst x v s).Over P := by
  refine Symbol.induction (fun n => ?_) (fun op p q hp hq => ?_) fun f args hargs => ?_
  · rw [Symbol.subst]
    split
    · exact hvP
    · rename_i hn
      exact .ofSymbol (hnamed n hn)
  · rw [Symbol.subst]
    exact .apply hP (Symbol.canonical_substPoly hv p) (over_subst_of_symbols hp)
      (Symbol.canonical_substPoly hv q) (over_subst_of_symbols hq)
  · rw [Symbol.subst, Symbol.substArgs_eq_map]
    exact .ofSymbol (hP.call
      (List.forall_mem_map.2 fun a _ => Symbol.canonical_substPoly hv a)
      (List.forall_mem_map.2 fun a ha => over_subst_of_symbols (hargs a ha)))

theorem Over.subst (hP : Symbol.Closed P) (hnamed : ∀ n, n ≠ x → P (.named n))
    (hv : v.Canonical) (hvP : v.Over P) : (p.subst x v).Over P :=
  over_subst_of_symbols fun _ _ f _ => over_substSymbol hP hnamed hv hvP f.1

end Polynomial

/-! ## Reduced form -/

/-- An unknown, or an operation that does not fold, or a call; the operands are canonical and all
    symbols in them are reduced too. -/
inductive Symbol.Reduced : Symbol → Prop
  | named {x : String} : Reduced (.named x)
  | binary {op : BinOp} {p q : Poly} : p.Canonical → p.Over Reduced → q.Canonical →
      q.Over Reduced → op.result? p q = none → Reduced (.binary op p q)
  | call {f : String} {args : List Poly} : (∀ a ∈ args, a.Canonical) →
      (∀ a ∈ args, a.Over Reduced) → Reduced (.call f args)

theorem Symbol.closed_reduced : Closed Reduced where
  binary := .binary
  call := .call

namespace Polynomial

/-- Canonical at every depth, and no operation in it folds. -/
structure Reduced (p : Poly) : Prop where
  canonical : p.Canonical
  symbols : p.Over Symbol.Reduced

/-- The polynomials that the operations make from unknowns; if `bounded`, without an exponent that
    leaves its 32 bits.  In `Built` the symbols are arbitrary; here they are unknowns, operations
    and calls that come from polynomials made before. -/
inductive Derived (bounded : Prop) : Poly → Prop
  | zero : Derived bounded .zero
  | const {c} : Derived bounded (.const c)
  | named {x} : Derived bounded (.named x)
  | call {f args} : (∀ a ∈ args, Derived bounded a) → Derived bounded (.call f args)
  /-- A symbol taken out of a polynomial. -/
  | symbol {p s} : Derived bounded p → p.Occurs s → Derived bounded (.ofSymbol s)
  | ofMonomials {ms} : (∀ t ∈ ms, t.Derived bounded) →
      (∀ t ∈ ms, ∀ f ∈ t.powers.factors, Derived bounded (.ofSymbol f.1)) →
      Derived bounded (.ofMonomials ms)
  | add {p q} : Derived bounded p → Derived bounded q → Derived bounded (p + q)
  | sub {p q} : Derived bounded p → Derived bounded q → Derived bounded (p - q)
  | mul {p q} : (bounded → p.mulFits q) → Derived bounded p → Derived bounded q →
      Derived bounded (p * q)
  | neg {p} : Derived bounded p → Derived bounded (-p)
  | scale {p k} : Derived bounded p → Derived bounded (p.scale k)
  | pow {p e} : (bounded → p.powFits e) → Derived bounded p → Derived bounded (p.pow e)
  | divExact {p q d} : Derived bounded p → p.divExact? d = some q → Derived bounded q
  | apply {op p q} : (bounded → BinOp.applyFits op p q) → Derived bounded p → Derived bounded q →
      Derived bounded (BinOp.apply op p q)
  | subst {p x v} : (bounded → p.substFits x v) → Derived bounded p → Derived bounded v →
      Derived bounded (p.subst x v)

/-- The polynomials that the operations make from unknowns, where exponents may wrap around. -/
abbrev DeeplyBuilt (p : Poly) : Prop := p.Derived False

/-- The polynomials that the operations make from unknowns without an exponent that leaves its
    32 bits. -/
abbrev ExactlyBuilt (p : Poly) : Prop := p.Derived True

theorem reduced_ofSymbol_iff {s : Symbol} : (ofSymbol s).Reduced ↔ s.Reduced := by
  refine ⟨fun h => ?_, fun h => ⟨.ofSymbol, .ofSymbol h⟩⟩
  simpa [Over, Every, PowerProduct.Over, ofSymbol, PowerProduct.ofSymbol] using h.symbols

/-- What the operations make is reduced. -/
theorem Derived.reduced {bounded : Prop} {p : Poly} (h : p.Derived bounded) : p.Reduced := by
  induction h with
  | zero => exact ⟨.zero, every_nil⟩
  | const => exact ⟨.const, .const⟩
  | named => exact reduced_ofSymbol_iff.2 .named
  | call _ ih =>
    exact reduced_ofSymbol_iff.2 (.call (fun a ha => (ih a ha).canonical)
      fun a ha => (ih a ha).symbols)
  | symbol _ hs ih => exact reduced_ofSymbol_iff.2 (over_iff_occurs.1 ih.symbols _ hs)
  | ofMonomials hms _ ih =>
    refine ⟨.ofMonomials fun t ht => (hms t ht).canonical, ?_⟩
    refine sumTerms_induction every_nil every_addTerms fun t ht _ => ?_
    exact List.forall_mem_singleton.2 fun f hf => reduced_ofSymbol_iff.1 (ih t ht f hf)
  | add _ _ hp hq => exact ⟨hp.canonical.add hq.canonical, hp.symbols.add hq.symbols⟩
  | sub _ _ hp hq => exact ⟨hp.canonical.sub hq.canonical, hp.symbols.sub hq.symbols⟩
  | mul _ _ _ hp hq => exact ⟨hp.canonical.mul, hp.symbols.mul hq.symbols⟩
  | neg _ hp => exact ⟨hp.canonical.scale, every_scale hp.symbols⟩
  | scale _ hp => exact ⟨hp.canonical.scale, every_scale hp.symbols⟩
  | pow _ _ hp => exact ⟨hp.canonical.pow, hp.symbols.pow⟩
  | divExact _ hq hp => exact ⟨hp.canonical.divExact? hq, every_divExact? hp.symbols hq⟩
  | apply _ _ _ hp hq =>
    exact ⟨hp.canonical.apply, .apply Symbol.closed_reduced hp.canonical hp.symbols hq.canonical
      hq.symbols⟩
  | subst _ _ _ _ hv =>
    exact ⟨Symbol.canonical_substPoly hv.canonical _,
      .subst Symbol.closed_reduced (fun _ _ => .named) hv.canonical hv.symbols⟩

/-! ## Every depth -/

/-- `q.Inside p`: `q` is `p`, or it stands at some depth of `p`, as an operand of an operation or as
    an argument of a call. -/
inductive Inside (q : Poly) : Poly → Prop
  | self : Inside q q
  | left {op l r p} : p.Occurs (.binary op l r) → Inside q l → Inside q p
  | right {op l r p} : p.Occurs (.binary op l r) → Inside q r → Inside q p
  | argument {f args a p} : p.Occurs (.call f args) → a ∈ args → Inside q a → Inside q p

/-- What holds of the operands of the operations and of the arguments of the calls in a polynomial
    if it holds of the polynomial. -/
structure Hereditary (S : Poly → Prop) : Prop where
  operands : ∀ {p op l r}, S p → p.Occurs (.binary op l r) → S l ∧ S r
  arguments : ∀ {p f args}, S p → p.Occurs (.call f args) → ∀ a ∈ args, S a

variable {p q : Poly}

theorem Hereditary.of_inside {S : Poly → Prop} (hS : Hereditary S) (hp : S p) (hq : q.Inside p) :
    S q := by
  induction hq with
  | self => exact hp
  | left hs _ ih => exact ih (hS.operands hp hs).1
  | right hs _ ih => exact ih (hS.operands hp hs).2
  | argument hs ha _ ih => exact ih (hS.arguments hp hs _ ha)

theorem hereditary_reduced : Hereditary Reduced where
  operands hp hs := by
    cases over_iff_occurs.1 hp.symbols _ hs with
    | binary hl hlsymbols hr hrsymbols => exact ⟨⟨hl, hlsymbols⟩, ⟨hr, hrsymbols⟩⟩
  arguments hp hs a ha := by
    cases over_iff_occurs.1 hp.symbols _ hs with
    | call hargs hsymbols => exact ⟨hargs a ha, hsymbols a ha⟩

end Polynomial

end QuantumLowering
