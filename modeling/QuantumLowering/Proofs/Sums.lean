/-
  Sums of monomials.

  * `Polynomial.weigh w ts`: the sum of the coefficients of the terms, each times the weight that `w`
    gives to its power product.  Values of polynomials and single coefficients are such sums.
  * `Polynomial.weigh_addTerms`, `weigh_sumTerms`, `weigh_mul`: merging adds weights and multiplying
    combines them, whether or not the terms of the operands are in order.
  * `Polynomial.total_induction`: what the empty sum has and merging keeps, every sum has.
  * `Polynomial.pow_induction`: what `1` has and products keep, every power has.
  * `Polynomial.Every P`: all power products of a list of terms satisfy `P`.  Sums have the power
    products of their operands, products have products of theirs.
-/
import QuantumLowering.Proofs.EntryOrder

namespace QuantumLowering

variable {σ : Type}

namespace Polynomial

variable {v w : PowerProduct σ → Int64} {s : Monomial σ} {ts us : List (Monomial σ)}

/-! ## Weights -/

/-- The sum of the coefficients, each times the weight of its power product. -/
def weigh (w : PowerProduct σ → Int64) : List (Monomial σ) → Int64
  | [] => 0
  | t :: ts => t.coefficient * w t.powers + weigh w ts

@[simp] theorem weigh_nil : weigh w [] = 0 := rfl

@[simp] theorem weigh_cons : weigh w (s :: ts) = s.coefficient * w s.powers + weigh w ts := rfl

theorem weigh_congr (h : ∀ t ∈ ts, v t.powers = w t.powers) : weigh v ts = weigh w ts := by
  induction ts with
  | nil => rfl
  | cons t ts ih =>
    obtain ⟨ht, hts⟩ := List.forall_mem_cons.1 h
    rw [weigh_cons, weigh_cons, ht, ih hts]

theorem weigh_zero : weigh (fun _ => 0) ts = 0 := by
  induction ts with
  | nil => rfl
  | cons t ts ih => rw [weigh_cons, ih, Int64.mul_zero, Int64.zero_add]

theorem weigh_sum : weigh (fun m => v m + w m) ts = weigh v ts + weigh w ts := by
  induction ts with
  | nil => rfl
  | cons t ts ih => simp only [weigh_cons, ih]; grind

theorem weigh_mul_left {c : Int64} : weigh (fun m => c * w m) ts = c * weigh w ts := by
  induction ts with
  | nil => simp
  | cons t ts ih => simp only [weigh_cons, ih]; grind

theorem weigh_mul_right {c : Int64} : weigh (fun m => w m * c) ts = weigh w ts * c := by
  simp only [Int64.mul_comm _ c, weigh_mul_left]

/-- Two lists of terms can be weighed in either order. -/
theorem weigh_comm {f : PowerProduct σ → PowerProduct σ → Int64} :
    weigh (fun m => weigh (f m) us) ts = weigh (fun n => weigh (fun m => f m n) ts) us := by
  induction ts with
  | nil => exact weigh_zero.symm
  | cons t ts ih => simp only [weigh_cons, ih, weigh_sum, weigh_mul_left]

theorem weigh_perm (h : ts.Perm us) : weigh w ts = weigh w us := by
  induction h with
  | nil => rfl
  | cons t _ ih => rw [weigh_cons, weigh_cons, ih]
  | swap => simp only [weigh_cons]; grind
  | trans _ _ ih ih' => exact ih.trans ih'

theorem weigh_negate : weigh w (ts.map fun t => ⟨t.powers, -t.coefficient⟩) = -weigh w ts := by
  induction ts with
  | nil => simp
  | cons t ts ih => simp only [List.map_cons, weigh_cons, ih]; grind

theorem weigh_const {c : Int64} : weigh w (const c : Polynomial σ).terms = c * w .one := by
  unfold const
  split <;> simp_all

theorem weigh_scale {k : Int64} {p : Polynomial σ} :
    weigh w (p.scale k).terms = k * weigh w p.terms := by
  simp only [scale]
  induction p.terms with
  | nil => simp
  | cons t ts ih =>
    have hterm : t.coefficient * k * w t.powers = k * (t.coefficient * w t.powers) := by grind
    by_cases h : t.coefficient * k = 0
    · rw [h, Int64.zero_mul] at hterm
      simp only [List.filterMap_cons, h, if_true, ih, weigh_cons, Int64.mul_add, ← hterm,
        Int64.zero_add]
    · simp only [List.filterMap_cons, h, if_false, ih, weigh_cons, Int64.mul_add, hterm]

theorem weigh_neg [Ord σ] {p : Polynomial σ} : weigh w (-p).terms = -weigh w p.terms :=
  weigh_scale.trans (by rw [Int64.neg_mul, Int64.one_mul])

/-- A zero coefficient weighs nothing, whatever its power product is. -/
theorem weigh_of {c : Int64} {m : PowerProduct σ} :
    (Monomial.of c m).coefficient * w (Monomial.of c m).powers = c * w m := by
  unfold Monomial.of
  split <;> simp_all

theorem weigh_map_mul [Ord σ] :
    weigh w (ts.map s.mul) = s.coefficient * weigh (fun n => w (s.powers.mul n)) ts := by
  induction ts with
  | nil => simp
  | cons t ts ih => simp only [List.map_cons, weigh_cons, ih, Monomial.mul, weigh_of]; grind

/-! ## Merging -/

section
variable [Ord σ] [Std.LawfulEqOrd σ] {sums : List (Option (List (Monomial σ)))}

/-- `place` adds the term, whatever the rest of the sum is. -/
theorem weigh_place {rest : List (Monomial σ) → List (Monomial σ)} {r : Int64}
    (hr : ∀ us, weigh w (rest us) = r + weigh w us) :
    weigh w (place s rest us) = s.coefficient * w s.powers + r + weigh w us := by
  induction us with
  | nil => simp only [place, weigh_cons, hr]; grind
  | cons t us ih =>
    simp only [place]
    split
    · simp only [weigh_cons, hr]; grind
    · rename_i h
      rw [Std.LawfulEqCmp.eq_of_compare h]
      split
      · rename_i h0
        have hc : (s.coefficient + t.coefficient) * w t.powers = 0 := by rw [h0, Int64.zero_mul]
        simp only [weigh_cons, hr]; grind
      · simp only [weigh_cons, hr]; grind
    · simp only [weigh_cons, ih]; grind

theorem weigh_addTerms : weigh w (addTerms ts us) = weigh w ts + weigh w us := by
  induction ts generalizing us with
  | nil => simp [addTerms]
  | cons s ts ih =>
    rw [addTerms, weigh_place (r := weigh w ts) fun us => ih]
    rfl

theorem weigh_add {p q : Polynomial σ} :
    weigh w (p + q).terms = weigh w p.terms + weigh w q.terms := weigh_addTerms

theorem weigh_sub {p q : Polynomial σ} :
    weigh w (p - q).terms = weigh w p.terms - weigh w q.terms := by
  rw [Int64.sub_eq_add_neg, ← weigh_negate]
  exact weigh_addTerms

/-- The weight of a row of partial sums. -/
def weighRow (w : PowerProduct σ → Int64) : List (Option (List (Monomial σ))) → Int64
  | [] => 0
  | ts :: sums => weigh w (ts.getD []) + weighRow w sums

theorem weighRow_carry : weighRow w (carry ts sums) = weigh w ts + weighRow w sums := by
  induction sums generalizing ts with
  | nil => simp [carry, weighRow]
  | cons us sums ih =>
    cases us with
    | none => simp [carry, weighRow]
    | some us => simp only [carry, weighRow, ih, weigh_addTerms, Option.getD, weigh_nil]; grind

theorem weigh_total : weigh w (total sums) = weighRow w sums := by
  have key : ∀ acc, weigh w (sums.foldl (fun acc ts => addTerms acc (ts.getD [])) acc) =
      weigh w acc + weighRow w sums := by
    induction sums with
    | nil => simp [weighRow]
    | cons ts sums ih =>
      intro acc
      simp only [List.foldl_cons, ih, weigh_addTerms, weighRow]; grind
  simp [total, key]

/-- Lists of terms, one for each term of a list and weighing a multiple of its coefficient,
    added up. -/
theorem weigh_foldl_carry {f : Monomial σ → List (Monomial σ)}
    (hf : ∀ t, weigh w (f t) = t.coefficient * v t.powers) :
    weigh w (total (ts.foldl (fun sums t => carry (f t) sums) [])) = weigh v ts := by
  have key : ∀ sums, weighRow w (ts.foldl (fun sums t => carry (f t) sums) sums) =
      weighRow w sums + weigh v ts := by
    induction ts with
    | nil => simp
    | cons t ts ih =>
      intro sums
      simp only [List.foldl_cons, ih, weighRow_carry, hf, weigh_cons]; grind
  simp [weigh_total, key, weighRow]

theorem weigh_sumTerms : weigh w (sumTerms ts) = weigh w ts :=
  weigh_foldl_carry fun t => by split <;> simp_all

/-- Every term of one factor with every term of the other. -/
theorem weigh_mul {p q : Polynomial σ} :
    weigh w (p * q).terms =
      weigh (fun m => weigh (fun n => w (m.mul n)) q.terms) p.terms :=
  weigh_foldl_carry fun t => by rw [weigh_sumTerms, weigh_map_mul]

end

/-! ## Properties of sums -/

section
variable [Ord σ] {Q : List (Monomial σ) → Prop} (hnil : Q [])
    (hadd : ∀ {ts us}, Q ts → Q us → Q (addTerms ts us))
include hnil hadd

theorem carry_induction {sums : List (Option (List (Monomial σ)))} (hts : Q ts)
    (hsums : ∀ u ∈ sums, Q (u.getD [])) : ∀ u ∈ carry ts sums, Q (u.getD []) := by
  induction sums generalizing ts with
  | nil => simpa [carry] using hts
  | cons u sums ih =>
    obtain ⟨hu, hrest⟩ := List.forall_mem_cons.1 hsums
    cases u with
    | none => exact List.forall_mem_cons.2 ⟨hts, hrest⟩
    | some us => exact List.forall_mem_cons.2 ⟨hnil, ih (hadd hu hts) hrest⟩

/-- What the empty sum has and merging keeps, the sum of several lists of terms has if each of them
    has it. -/
theorem total_induction {α : Type} {f : α → List (Monomial σ)} {xs : List α}
    (h : ∀ x ∈ xs, Q (f x)) : Q (total (xs.foldl (fun sums x => carry (f x) sums) [])) := by
  have hrow : ∀ sums : List (Option (List (Monomial σ))), (∀ u ∈ sums, Q (u.getD [])) →
      ∀ u ∈ xs.foldl (fun sums x => carry (f x) sums) sums, Q (u.getD []) := by
    induction xs with
    | nil => exact fun _ h => h
    | cons x xs ih =>
      obtain ⟨hx, hrest⟩ := List.forall_mem_cons.1 h
      exact fun sums hsums => ih hrest _ (carry_induction hnil hadd hx hsums)
  have htotal : ∀ sums : List (Option (List (Monomial σ))), (∀ u ∈ sums, Q (u.getD [])) →
      ∀ acc, Q acc → Q (sums.foldl (fun acc u => addTerms acc (u.getD [])) acc) := by
    intro sums
    induction sums with
    | nil => exact fun _ _ h => h
    | cons u sums ih =>
      intro hsums acc hacc
      obtain ⟨hu, hrest⟩ := List.forall_mem_cons.1 hsums
      exact ih hrest _ (hadd hacc hu)
  exact htotal _ (hrow [] (by simp)) [] hnil

/-- Terms that are zero do not count. -/
theorem sumTerms_induction (h : ∀ t ∈ ts, t.coefficient ≠ 0 → Q [t]) : Q (sumTerms ts) := by
  refine total_induction hnil hadd fun t ht => ?_
  split
  · exact hnil
  · rename_i hne
    exact h t ht hne

end

/-- What `1` has and products keep, the powers of a polynomial have if it has it. -/
theorem pow_induction [Ord σ] {P : Polynomial σ → Prop} {p : Polynomial σ} {e : Nat}
    (hone : P (const 1)) (hmul : ∀ {q r}, P q → P r → P (q * r)) (hp : P p) : P (p.pow e) := by
  have hstep {acc base : Polynomial σ} {e : Nat} (hacc : P acc) (hbase : P base) :
      P (if e % 2 = 1 then acc * base else acc) := by
    split
    · exact hmul hacc hbase
    · exact hacc
  have hloop : ∀ acc base : Polynomial σ, P acc → P base → P (powLoop acc base e) := by
    intro acc base hacc hbase
    fun_induction powLoop acc base e with
    | case1 => exact hacc
    | case2 => exact hstep hacc hbase
    | case3 acc base e he acc' hmore ih => exact ih (hstep hacc hbase) (hmul hbase hbase)
  exact hloop _ _ hone hp

/-! ## Power products of sums -/

variable {P : PowerProduct σ → Prop} {p q : Polynomial σ}

/-- All power products of a list of terms satisfy `P`. -/
def Every (P : PowerProduct σ → Prop) (ts : List (Monomial σ)) : Prop := ∀ t ∈ ts, P t.powers

theorem every_nil : Every P [] := fun _ h => absurd h List.not_mem_nil

theorem every_scale {k : Int64} (hp : Every P p.terms) : Every P (p.scale k).terms := by
  intro t ht
  simp only [scale, List.mem_filterMap, Option.ite_none_left_eq_some, Option.some.injEq] at ht
  obtain ⟨u, hu, -, rfl⟩ := ht
  exact hp u hu

theorem every_divExact? {d : Int64} (hp : Every P p.terms) (h : p.divExact? d = some q) :
    Every P q.terms := by
  unfold divExact? at h
  split at h
  · simp at h
  · obtain rfl := Option.some.inj h
    intro t ht
    obtain ⟨u, hu, rfl⟩ := List.mem_map.1 ht
    exact hp u hu

variable [Ord σ]

theorem every_place {rest : List (Monomial σ) → List (Monomial σ)}
    (hs : P s.powers) (hrest : ∀ {us}, Every P us → Every P (rest us)) (hus : Every P us) :
    Every P (place s rest us) := by
  induction us with
  | nil => exact List.forall_mem_cons.2 ⟨hs, hrest hus⟩
  | cons t us ih =>
    obtain ⟨ht, htail⟩ := List.forall_mem_cons.1 hus
    rw [place]
    split
    · exact List.forall_mem_cons.2 ⟨hs, hrest hus⟩
    · dsimp only
      split
      · exact hrest htail
      · exact List.forall_mem_cons.2 ⟨hs, hrest htail⟩
    · exact List.forall_mem_cons.2 ⟨ht, ih htail⟩

theorem every_addTerms (hts : Every P ts) (hus : Every P us) : Every P (addTerms ts us) := by
  induction ts generalizing us with
  | nil => exact hus
  | cons s ts ih =>
    obtain ⟨hs, htail⟩ := List.forall_mem_cons.1 hts
    exact every_place hs (fun h => ih htail h) hus

theorem every_add (hp : Every P p.terms) (hq : Every P q.terms) : Every P (p + q).terms :=
  every_addTerms hp hq

theorem every_sub (hp : Every P p.terms) (hq : Every P q.terms) : Every P (p - q).terms := by
  refine every_addTerms hp fun t ht => ?_
  obtain ⟨u, hu, rfl⟩ := List.mem_map.1 ht
  exact hq u hu

/-- A product that is not zero has the product of the powers. -/
theorem powers_mul {s t : Monomial σ} (h : (s.mul t).coefficient ≠ 0) :
    (s.mul t).powers = s.powers.mul t.powers := by
  simp only [Monomial.mul, Monomial.of] at h ⊢
  split <;> simp_all

theorem every_mul (h : ∀ s ∈ p.terms, ∀ t ∈ q.terms, P (s.powers.mul t.powers)) :
    Every P (p * q).terms := by
  refine total_induction every_nil every_addTerms fun s hs => ?_
  refine sumTerms_induction every_nil every_addTerms fun u hu hne => ?_
  obtain ⟨t, ht, rfl⟩ := List.mem_map.1 hu
  refine List.forall_mem_singleton.2 ?_
  rw [powers_mul hne]
  exact h s hs t ht

end Polynomial

end QuantumLowering
