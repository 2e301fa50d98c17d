/-
  Polynomials in canonical form.

  * `eq_of_sumAt`: two lists that ascend by a key are equal if they have the same keys and the
    values at each key have the same sum.
  * `PowerProduct.Canonical`: the symbols ascend.  Multiplication keeps this, and on such products
    it is associative and commutative, also where exponents wrap around.
  * `Polynomial.InOrder`: the power products ascend and no coefficient is zero.  Merging keeps
    this, and sums and products of many terms have it wherever the terms come from.
  * `Polynomial.InOrder.ext`: two polynomials in order are equal if all weights agree on them.
  * `Polynomial.Canonical`: also the power products are canonical.  All operations keep this.
-/
import Mathlib.Data.List.Sort
import QuantumLowering.Proofs.Evaluation
import QuantumLowering.Proofs.SymbolOrder

namespace QuantumLowering

/-! ## Lists in ascending order -/

section
variable {α κ V : Type} [Ord κ]

/-- The keys ascend. -/
def Ascending (key : α → κ) (l : List α) : Prop :=
  l.Pairwise fun a b => compare (key a) (key b) = .lt

/-- The sum of the values at a key. -/
def sumAt [Add V] [OfNat V 0] (key : α → κ) (val : α → V) (k : κ) : List α → V
  | [] => 0
  | a :: l => if compare (key a) k = .eq then val a + sumAt key val k l else sumAt key val k l

variable [Add V] [OfNat V 0] {key : α → κ} {val : α → V} {k : κ} {l l' : List α}

theorem sumAt_eq_zero (h : ∀ a ∈ l, compare (key a) k ≠ .eq) : sumAt key val k l = 0 := by
  induction l with
  | nil => rfl
  | cons a l ih =>
    obtain ⟨ha, hl⟩ := List.forall_mem_cons.1 h
    rw [sumAt, if_neg ha, ih hl]

variable [Std.LawfulEqOrd κ]

theorem compare_ne_lt_self (a : α) : compare (key a) (key a) ≠ .lt := by
  have h : compare (key a) (key a) = .eq := Std.ReflCmp.compare_self
  rw [h]
  decide

theorem compare_ne_lt_of_eq {a b : α} (h : key a = key b) : compare (key a) (key b) ≠ .lt :=
  h ▸ compare_ne_lt_self a

variable (hval : ∀ {a b : α}, key a = key b → val a = val b → a = b) (hzero : ∀ v : V, v + 0 = v)

section
include hzero

/-- Each key occurs once, with its value as the sum. -/
theorem sumAt_eq_of_mem (h : Ascending key l) {a : α} (ha : a ∈ l) :
    sumAt key val (key a) l = val a := by
  induction l with
  | nil => exact absurd ha List.not_mem_nil
  | cons b l ih =>
    obtain ⟨hb, hl⟩ := List.pairwise_cons.1 h
    rw [sumAt]
    rcases List.mem_cons.1 ha with rfl | ha
    · have hlater : ∀ c ∈ l, compare (key c) (key a) ≠ .eq := fun c hc heq =>
        compare_ne_lt_of_eq (Std.LawfulEqCmp.eq_of_compare heq).symm (hb c hc)
      rw [if_pos Std.ReflCmp.compare_self, sumAt_eq_zero hlater, hzero]
    · rw [if_neg fun heq => compare_ne_lt_of_eq (Std.LawfulEqCmp.eq_of_compare heq) (hb a ha),
        ih hl ha]

/-- Without zero values, the keys are where the sums are not zero. -/
theorem mem_keys_iff_sumAt (h : Ascending key l) (hne : ∀ a ∈ l, val a ≠ 0) :
    k ∈ l.map key ↔ sumAt key val k l ≠ 0 := by
  constructor
  · intro hk
    obtain ⟨a, ha, rfl⟩ := List.mem_map.1 hk
    rw [sumAt_eq_of_mem hzero h ha]
    exact hne a ha
  · intro hsum
    by_contra hk
    refine hsum (sumAt_eq_zero fun a ha heq => hk ?_)
    exact List.mem_map.2 ⟨a, ha, Std.LawfulEqCmp.eq_of_compare heq⟩

end

include hval hzero

/-- Lists in order are determined by their keys and the sums at them. -/
theorem eq_of_sumAt [Std.TransOrd κ] (hl : Ascending key l) (hl' : Ascending key l')
    (hkeys : ∀ k, k ∈ l.map key ↔ k ∈ l'.map key)
    (h : ∀ k, sumAt key val k l = sumAt key val k l') : l = l' := by
  have : Std.Irrefl fun a b : α => compare (key a) (key b) = .lt := ⟨compare_ne_lt_self⟩
  have : Std.Antisymm fun a b : α => compare (key a) (key b) = .lt :=
    ⟨fun a b h h' => absurd (Std.TransCmp.lt_trans h h') (compare_ne_lt_self a)⟩
  have hsubset {l l' : List α} (hl : Ascending key l) (hl' : Ascending key l')
      (hkeys : ∀ k, k ∈ l.map key → k ∈ l'.map key)
      (h : ∀ k, sumAt key val k l = sumAt key val k l') {a : α} (ha : a ∈ l) : a ∈ l' := by
    obtain ⟨b, hb, hkey⟩ := List.mem_map.1 (hkeys _ (List.mem_map_of_mem ha))
    have hsum : val b = val a := calc
      val b = sumAt key val (key b) l' := (sumAt_eq_of_mem hzero hl' hb).symm
      _ = sumAt key val (key a) l := by rw [hkey, h]
      _ = val a := sumAt_eq_of_mem hzero hl ha
    exact hval hkey hsum ▸ hb
  refine List.Pairwise.eq_of_mem_iff hl hl' fun {a} => ⟨?_, ?_⟩
  · exact hsubset hl hl' (fun k => (hkeys k).1) h
  · exact hsubset hl' hl (fun k => (hkeys k).2) fun k => (h k).symm

end

variable {σ : Type} [Ord σ]

/-! ## Power products -/

namespace PowerProduct

/-- The symbols ascend. -/
structure Canonical (m : PowerProduct σ) : Prop where
  ascending : Ascending Prod.fst m.factors

/-- The exponent of a symbol. -/
def exponent (m : PowerProduct σ) (s : σ) : UInt32 := sumAt Prod.fst Prod.snd s m.factors

theorem Canonical.one : (one : PowerProduct σ).Canonical := ⟨List.Pairwise.nil⟩

theorem Canonical.ofSymbol {s : σ} : (ofSymbol s).Canonical := ⟨List.pairwise_singleton ..⟩

variable [Std.LawfulEqOrd σ]

section
variable {k s t : σ} {e : UInt32} {l : List (σ × UInt32)}

theorem sumAt_insertPower :
    sumAt Prod.fst Prod.snd k (insertPower s e l) =
      sumAt Prod.fst Prod.snd k l + if compare s k = .eq then e else 0 := by
  induction l with
  | nil => simp [insertPower, sumAt]
  | cons f l ih =>
    rw [insertPower]
    split
    · simp only [sumAt]
      grind
    · rename_i h
      obtain rfl := Std.LawfulEqCmp.eq_of_compare h
      simp only [sumAt]
      grind
    · simp only [sumAt, ih]
      grind

theorem forall_mem_insertPower {P : σ × UInt32 → Prop} (hs : P (s, e))
    (hadd : ∀ d, P (s, d) → P (s, d + e)) (hl : ∀ f ∈ l, P f) : ∀ f ∈ insertPower s e l, P f := by
  induction l with
  | nil => exact List.forall_mem_singleton.2 hs
  | cons f l ih =>
    obtain ⟨hf, hrest⟩ := List.forall_mem_cons.1 hl
    rw [insertPower]
    split
    · exact List.forall_mem_cons.2 ⟨hs, hl⟩
    · rename_i h
      obtain rfl := Std.LawfulEqCmp.eq_of_compare h
      exact List.forall_mem_cons.2 ⟨hadd _ hf, hrest⟩
    · exact List.forall_mem_cons.2 ⟨hf, ih hrest⟩

theorem mem_symbols_insertPower :
    k ∈ (insertPower s e l).map Prod.fst ↔ k = s ∨ k ∈ l.map Prod.fst := by
  induction l with
  | nil => simp [insertPower]
  | cons f l ih =>
    rw [insertPower]
    split
    · simp
    · rename_i h
      obtain rfl := Std.LawfulEqCmp.eq_of_compare h
      simp
    · rw [List.map_cons, List.mem_cons, ih, List.map_cons, List.mem_cons]
      exact or_left_comm

theorem ascending_insertPower [Std.TransOrd σ] (hl : Ascending Prod.fst l) :
    Ascending Prod.fst (insertPower s e l) := by
  induction l with
  | nil => exact List.pairwise_singleton ..
  | cons f l ih =>
    obtain ⟨hf, hrest⟩ := List.pairwise_cons.1 hl
    rw [insertPower]
    split
    · rename_i h
      exact List.pairwise_cons.2
        ⟨List.forall_mem_cons.2 ⟨h, fun g hg => Std.TransCmp.lt_trans h (hf g hg)⟩, hl⟩
    · exact List.pairwise_cons.2 ⟨hf, hrest⟩
    · rename_i h
      exact List.pairwise_cons.2
        ⟨forall_mem_insertPower (Std.OrientedCmp.lt_of_gt h) (fun _ h => h) hf, ih hrest⟩

end

variable {l m n : PowerProduct σ} {s : σ}

theorem exponent_mul : (m.mul n).exponent s = m.exponent s + n.exponent s := by
  obtain ⟨n⟩ := n
  simp only [exponent]
  induction n with
  | nil => exact (UInt32.add_zero _).symm
  | cons f n ih =>
    rw [mul_cons, sumAt_insertPower, ih, sumAt]
    grind

/-- A product has the symbols of both factors. -/
theorem mem_symbols_mul : s ∈ (m.mul n).factors.map Prod.fst ↔
    s ∈ m.factors.map Prod.fst ∨ s ∈ n.factors.map Prod.fst := by
  obtain ⟨n⟩ := n
  induction n with
  | nil => simp [mul]
  | cons f n ih =>
    rw [mul_cons, mem_symbols_insertPower, ih, List.map_cons, List.mem_cons]
    exact or_left_comm

/-- Without zero exponents, the symbols are those whose exponents are not zero. -/
theorem Canonical.mem_symbols_iff (hm : m.Canonical) (hne : ∀ f ∈ m.factors, f.2 ≠ 0) :
    s ∈ m.factors.map Prod.fst ↔ m.exponent s ≠ 0 :=
  mem_keys_iff_sumAt UInt32.add_zero hm.ascending hne

variable [Std.TransOrd σ]

theorem Canonical.mul (hm : m.Canonical) : (m.mul n).Canonical := by
  obtain ⟨n⟩ := n
  induction n with
  | nil => exact hm
  | cons f n ih => exact ⟨ascending_insertPower ih.ascending⟩

/-- The symbols and their exponents determine a product. -/
theorem Canonical.ext (hm : m.Canonical) (hn : n.Canonical)
    (hsymbols : ∀ s, s ∈ m.factors.map Prod.fst ↔ s ∈ n.factors.map Prod.fst)
    (h : ∀ s, m.exponent s = n.exponent s) : m = n := by
  have := eq_of_sumAt Prod.ext UInt32.add_zero hm.ascending hn.ascending hsymbols h
  cases m
  exact congrArg _ this

theorem Canonical.mul_comm (hm : m.Canonical) (hn : n.Canonical) : m.mul n = n.mul m :=
  hm.mul.ext hn.mul (fun s => by simp only [mem_symbols_mul, or_comm])
    fun s => by simp only [exponent_mul, UInt32.add_comm]

theorem Canonical.mul_assoc (hl : l.Canonical) : (l.mul m).mul n = l.mul (m.mul n) :=
  hl.mul.mul.ext hl.mul (fun s => by simp only [mem_symbols_mul, or_assoc])
    fun s => by simp only [exponent_mul, UInt32.add_assoc]

theorem Canonical.one_mul (hm : m.Canonical) : PowerProduct.one.mul m = m :=
  Canonical.one.mul.ext hm (fun s => by rw [mem_symbols_mul]; simp [PowerProduct.one])
    fun s => by rw [exponent_mul, exponent]; exact UInt32.zero_add _

end PowerProduct

namespace Polynomial

/-! ## Terms in order -/

/-- The power products ascend and no coefficient is zero. -/
structure InOrder (ts : List (Monomial σ)) : Prop where
  ascending : Ascending Monomial.powers ts
  nonzero : ∀ t ∈ ts, t.coefficient ≠ 0

variable {s : Monomial σ} {ts us : List (Monomial σ)} {p q : Polynomial σ}

theorem inOrder_cons : InOrder (s :: ts) ↔
    s.coefficient ≠ 0 ∧ Every (compare s.powers · = .lt) ts ∧ InOrder ts := by
  constructor
  · rintro ⟨hasc, hne⟩
    obtain ⟨hs, hasc⟩ := List.pairwise_cons.1 hasc
    obtain ⟨hc, hne⟩ := List.forall_mem_cons.1 hne
    exact ⟨hc, hs, hasc, hne⟩
  · rintro ⟨hc, hs, hasc, hne⟩
    exact ⟨List.pairwise_cons.2 ⟨hs, hasc⟩, List.forall_mem_cons.2 ⟨hc, hne⟩⟩

theorem InOrder.nil : InOrder ([] : List (Monomial σ)) where
  ascending := List.Pairwise.nil
  nonzero _ h := absurd h List.not_mem_nil

theorem InOrder.singleton (h : s.coefficient ≠ 0) : InOrder [s] :=
  inOrder_cons.2 ⟨h, every_nil, .nil⟩

/-- What only changes coefficients and drops terms keeps the order. -/
theorem InOrder.filterMap {f : Monomial σ → Option (Monomial σ)} (h : InOrder ts)
    (hf : ∀ t u, t ∈ ts → f t = some u → u.powers = t.powers ∧ u.coefficient ≠ 0) :
    InOrder (ts.filterMap f) where
  ascending := by
    refine List.pairwise_filterMap.2
      (h.ascending.imp_of_mem fun {t u} ht hu hlt t' ht' u' hu' => ?_)
    rwa [(hf t t' ht ht').1, (hf u u' hu hu').1]
  nonzero t' ht' := by
    obtain ⟨t, ht, heq⟩ := List.mem_filterMap.1 ht'
    exact (hf t t' ht heq).2

theorem InOrder.map {f : Int64 → Int64} (h : InOrder ts)
    (hf : ∀ t ∈ ts, f t.coefficient ≠ 0) :
    InOrder (ts.map fun t => ⟨t.powers, f t.coefficient⟩) := by
  rw [← List.filterMap_eq_map']
  refine h.filterMap fun t u ht heq => ?_
  obtain rfl := Option.some.inj heq
  exact ⟨rfl, hf t ht⟩

theorem InOrder.scale {k : Int64} (h : InOrder p.terms) : InOrder (p.scale k).terms := by
  refine h.filterMap fun t u _ heq => ?_
  simp only [Option.ite_none_left_eq_some, Option.some.injEq] at heq
  obtain ⟨hne, rfl⟩ := heq
  exact ⟨rfl, hne⟩

theorem InOrder.divExact? {d : Int64} (hp : InOrder p.terms) (h : p.divExact? d = some q) :
    InOrder q.terms := by
  obtain ⟨rfl, hdvd⟩ := eq_of_divExact? h
  refine hp.map (f := (· / d)) fun t ht hzero => hp.nonzero t ht ?_
  rw [← hdvd t ht, hzero, Int64.zero_mul]

/-- The sum of the terms with a power product is the weight that counts these terms only. -/
theorem sumAt_eq_weigh {m : PowerProduct σ} :
    sumAt Monomial.powers Monomial.coefficient m ts =
      weigh (fun n => if compare n m = .eq then 1 else 0) ts := by
  induction ts with
  | nil => rfl
  | cons t ts ih =>
    rw [sumAt, weigh_cons, ih]
    split <;> simp

section
variable [Std.TransOrd σ] [Std.LawfulEqOrd σ]

/-- The weights determine a polynomial whose terms are in order. -/
theorem InOrder.ext (hp : InOrder p.terms) (hq : InOrder q.terms)
    (h : ∀ w, weigh w p.terms = weigh w q.terms) : p = q := by
  have hsum (m : PowerProduct σ) : sumAt Monomial.powers Monomial.coefficient m p.terms =
      sumAt Monomial.powers Monomial.coefficient m q.terms := by
    rw [sumAt_eq_weigh, sumAt_eq_weigh, h]
  have hkeys (m : PowerProduct σ) :
      m ∈ p.terms.map Monomial.powers ↔ m ∈ q.terms.map Monomial.powers := by
    rw [mem_keys_iff_sumAt Int64.add_zero hp.ascending hp.nonzero,
      mem_keys_iff_sumAt Int64.add_zero hq.ascending hq.nonzero, hsum]
  have hterms := eq_of_sumAt Monomial.ext Int64.add_zero hp.ascending hq.ascending hkeys hsum
  cases p
  exact congrArg _ hterms

theorem InOrder.place (hs : s.coefficient ≠ 0) (hts : Every (compare s.powers · = .lt) ts)
    (hrest : ∀ {us}, InOrder us → InOrder (addTerms ts us)) (hus : InOrder us) :
    InOrder (place s (addTerms ts) us) := by
  induction us with
  | nil => exact inOrder_cons.2 ⟨hs, every_addTerms hts every_nil, hrest hus⟩
  | cons t us ih =>
    obtain ⟨ht, hlt, hus'⟩ := inOrder_cons.1 hus
    rw [Polynomial.place]
    split
    · rename_i h
      have hafter : Every (compare s.powers · = .lt) (t :: us) :=
        List.forall_mem_cons.2 ⟨h, fun u hu => Std.TransCmp.lt_trans h (hlt u hu)⟩
      exact inOrder_cons.2 ⟨hs, every_addTerms hts hafter, hrest hus⟩
    · rename_i h
      have hafter : Every (compare s.powers · = .lt) us :=
        Std.LawfulEqCmp.eq_of_compare h ▸ hlt
      dsimp only
      split
      · exact hrest hus'
      · rename_i hc
        exact inOrder_cons.2 ⟨hc, every_addTerms hts hafter, hrest hus'⟩
    · rename_i h
      have hst : compare t.powers s.powers = .lt := Std.OrientedCmp.lt_of_gt h
      have hafter : Every (compare t.powers · = .lt) ts :=
        fun u hu => Std.TransCmp.lt_trans hst (hts u hu)
      exact inOrder_cons.2 ⟨ht, every_place hst (every_addTerms hafter) hlt, ih hus'⟩

theorem InOrder.addTerms (hts : InOrder ts) (hus : InOrder us) : InOrder (addTerms ts us) := by
  induction ts generalizing us with
  | nil => exact hus
  | cons s ts ih =>
    obtain ⟨hs, hlt, hts⟩ := inOrder_cons.1 hts
    exact .place hs hlt (ih hts) hus

/-- Summing puts monomials in order, however they come. -/
theorem InOrder.sumTerms : InOrder (sumTerms ts) :=
  sumTerms_induction .nil .addTerms fun _ _ h => .singleton h

/-- Products are in order, whether or not the factors are. -/
theorem InOrder.mul : InOrder (p * q).terms :=
  total_induction .nil .addTerms fun _ _ => .sumTerms

theorem InOrder.sub (hp : InOrder p.terms) (hq : InOrder q.terms) : InOrder (p - q).terms :=
  hp.addTerms (hq.map fun t ht => by simpa using hq.nonzero t ht)

end

/-! ## Canonical polynomials -/

/-- The terms are in order and their power products are canonical. -/
structure Canonical (p : Polynomial σ) : Prop where
  inOrder : InOrder p.terms
  powers : Every PowerProduct.Canonical p.terms

theorem Canonical.zero : (zero : Polynomial σ).Canonical where
  inOrder := .nil
  powers := every_nil

theorem Canonical.const {c : Int64} : (const c : Polynomial σ).Canonical := by
  unfold Polynomial.const
  split
  · exact .zero
  · rename_i h
    exact ⟨.singleton h, List.forall_mem_singleton.2 .one⟩

theorem Canonical.ofSymbol {s : σ} : (ofSymbol s).Canonical where
  inOrder := .singleton (by simp)
  powers := List.forall_mem_singleton.2 .ofSymbol

theorem Canonical.scale {k : Int64} (hp : p.Canonical) : (p.scale k).Canonical where
  inOrder := hp.inOrder.scale
  powers := every_scale hp.powers

theorem Canonical.divExact? {d : Int64} (hp : p.Canonical) (h : p.divExact? d = some q) :
    q.Canonical where
  inOrder := hp.inOrder.divExact? h
  powers := every_divExact? hp.powers h

variable [Std.TransOrd σ] [Std.LawfulEqOrd σ]

theorem Canonical.ofMonomials (h : Every PowerProduct.Canonical ts) :
    (ofMonomials ts).Canonical where
  inOrder := .sumTerms
  powers := sumTerms_induction every_nil every_addTerms
    fun t ht _ => List.forall_mem_singleton.2 (h t ht)

theorem Canonical.add (hp : p.Canonical) (hq : q.Canonical) : (p + q).Canonical where
  inOrder := hp.inOrder.addTerms hq.inOrder
  powers := every_add hp.powers hq.powers

theorem Canonical.sub (hp : p.Canonical) (hq : q.Canonical) : (p - q).Canonical where
  inOrder := hp.inOrder.sub hq.inOrder
  powers := every_sub hp.powers hq.powers

theorem Canonical.mul (hp : p.Canonical) : (p * q).Canonical where
  inOrder := .mul
  powers := every_mul fun s hs _ _ => (hp.powers s hs).mul

theorem Canonical.pow {e : Nat} (hp : p.Canonical) : (p.pow e).Canonical :=
  pow_induction .const (fun hp _ => .mul hp) hp

end Polynomial

end QuantumLowering
