/-
  Which unknowns occur where.

  * `Quantity.mentions_add` and its companions: a result mentions what its operands mention.
  * `Qubits.mentions`, `ClassicalValue.mentions`, `Operation.mentions`: the unknown occurs in one
    of the quantities, or as a variable of a classical expression.
  * `Qubits.mentions_size`, `Operation.mentions_size`: sizes mention nothing else.
-/
import QuantumLowering.Operation
import QuantumLowering.Classical.Range
import QuantumLowering.Proofs.Evaluation

namespace QuantumLowering

/-! ## Unknowns of polynomials -/

variable {x y : String}

/-- Whether the unknown `x` occurs in a power product. -/
def PowerProduct.mentions (m : PowerProduct Symbol) (x : String) : Bool :=
  Symbol.factorsMention x m.factors

theorem PowerProduct.factorsMention_insertPower {s : Symbol} {e : UInt32}
    {m : List (Symbol × UInt32)} : Symbol.factorsMention x (insertPower s e m) =
      (s.mentions x || Symbol.factorsMention x m) := by
  induction m with
  | nil => rfl
  | cons f m ih =>
    obtain ⟨t, d⟩ := f
    rw [insertPower]
    split
    · rfl
    · rename_i h
      obtain rfl := Std.LawfulEqCmp.eq_of_compare h
      simp [Symbol.factorsMention]
    · simp only [Symbol.factorsMention, ih, Bool.or_left_comm]

/-- A product has the unknowns of both factors. -/
theorem PowerProduct.mentions_mul {m n : PowerProduct Symbol} :
    (m.mul n).mentions x = (m.mentions x || n.mentions x) := by
  obtain ⟨n⟩ := n
  simp only [mentions]
  induction n with
  | nil => simp [mul, Symbol.factorsMention]
  | cons f n ih =>
    rw [mul_cons, factorsMention_insertPower, ih, Symbol.factorsMention]
    simp only [Bool.or_left_comm]

namespace Polynomial

variable {p q r : Poly}

theorem mentions_iff : p.mentions x ↔ ∃ t ∈ p.terms, t.powers.mentions x := by
  obtain ⟨ts⟩ := p
  simp only [mentions, Symbol.polyMentions]
  induction ts with
  | nil => simp [Symbol.termsMention]
  | cons t ts ih => simp [Symbol.termsMention, ih, PowerProduct.mentions]

theorem mentions_of_every {Q : Prop} (h : Every (fun m => m.mentions x → Q) p.terms)
    (hp : p.mentions x) : Q := by
  obtain ⟨t, ht, hx⟩ := mentions_iff.1 hp
  exact h t ht hx

theorem every_of_mentions {Q : Prop} (h : p.mentions x → Q) :
    Every (fun m => m.mentions x → Q) p.terms :=
  fun t ht hx => h (mentions_iff.2 ⟨t, ht, hx⟩)

theorem mentions_add (h : (p + q).mentions x) : p.mentions x ∨ q.mentions x :=
  mentions_of_every (every_add (every_of_mentions .inl) (every_of_mentions .inr)) h

theorem mentions_sub (h : (p - q).mentions x) : p.mentions x ∨ q.mentions x :=
  mentions_of_every (every_sub (every_of_mentions .inl) (every_of_mentions .inr)) h

theorem mentions_mul (h : (p * q).mentions x) : p.mentions x ∨ q.mentions x := by
  refine mentions_of_every (every_mul fun s hs t ht hx => ?_) h
  rw [PowerProduct.mentions_mul, Bool.or_eq_true] at hx
  exact hx.imp (fun hs' => mentions_iff.2 ⟨s, hs, hs'⟩) fun ht' => mentions_iff.2 ⟨t, ht, ht'⟩

theorem mentions_divExact? {d : Int64} (h : p.divExact? d = some r) (hr : r.mentions x) :
    p.mentions x :=
  mentions_of_every (every_divExact? (every_of_mentions id) h) hr

theorem mentions_div (h : (BinOp.div.apply p q).mentions x) : p.mentions x ∨ q.mentions x := by
  unfold BinOp.apply at h
  cases hr : BinOp.result? .div p q with
  | none =>
    rw [hr, Option.getD_none] at h
    simpa [mentions, ofSymbol, PowerProduct.ofSymbol, Symbol.polyMentions, Symbol.termsMention,
      Symbol.factorsMention, Symbol.mentions] using h
  | some r =>
    rw [hr, Option.getD_some] at h
    obtain ⟨d, -, hd⟩ := Option.bind_eq_some_iff.1 hr
    exact .inl (mentions_divExact? hd h)

theorem not_mentions_const {c : Int64} : ¬ (const c : Poly).mentions x := by
  unfold const
  split <;> simp [mentions, Symbol.polyMentions, Symbol.termsMention, Symbol.factorsMention,
    PowerProduct.one]

theorem mentions_named : (named y).mentions x ↔ y = x := by
  simp [mentions, named, ofSymbol, PowerProduct.ofSymbol, Symbol.polyMentions,
    Symbol.termsMention, Symbol.factorsMention, Symbol.mentions]

end Polynomial

/-! ## Unknowns of quantities -/

namespace Quantity

variable {a b v : Quantity}

theorem mentions_add (h : (a + b).mentions x) : a.mentions x ∨ b.mentions x :=
  Polynomial.mentions_add h

theorem mentions_sub (h : (a - b).mentions x) : a.mentions x ∨ b.mentions x :=
  Polynomial.mentions_sub h

theorem mentions_mul (h : (a * b).mentions x) : a.mentions x ∨ b.mentions x :=
  Polynomial.mentions_mul h

theorem mentions_div (h : (a / b).mentions x) : a.mentions x ∨ b.mentions x :=
  Polynomial.mentions_div h

@[simp] theorem not_mentions_const {c : Int64} : (const c).mentions x = false :=
  Bool.eq_false_iff.2 Polynomial.not_mentions_const

@[simp] theorem mentions_named : (named y).mentions x ↔ y = x := Polynomial.mentions_named

theorem mentions_divExact? (h : a.divExact? b = some v) (hv : v.mentions x) : a.mentions x := by
  obtain ⟨p, hp, rfl⟩ := Option.map_eq_some_iff.1 h
  obtain ⟨d, -, hd⟩ := Option.bind_eq_some_iff.1 hp
  exact Polynomial.mentions_divExact? hd hv

/-- A solution mentions what the right-hand side mentions. -/
theorem mentions_solve? (h : a.solve? b y = some v) (hv : v.mentions x) : b.mentions x := by
  have hquotient : ∀ {c k : Int64}, v = (b - const c) / const k → b.mentions x := by
    rintro c k rfl
    rcases mentions_div hv with hv | hv
    · exact (mentions_sub hv).resolve_right (by simp)
    · simp at hv
  unfold solve? at h
  split at h
  · simp at h
  · dsimp only at h
    split at h
    · split at h
      · exact hquotient (Option.some.inj h).symm
      · simp at h
    · exact hquotient (Option.some.inj h).symm

end Quantity

/-! ## Unknowns of qubits -/

namespace Qubits

mutual
/-- Whether the unknown `x` occurs in a size, a bound, an index or an initial value. -/
def mentions (x : String) : Qubits → Bool
  | .register v => v.size.mentions x
  | .fresh _ n init => n.mentions x || init.any (·.mentions x)
  | .strided q start stop step =>
    mentions x q || start.mentions x || stop.mentions x || step.mentions x
  | .single q index => mentions x q || index.mentions x
  | .joined qs => mentionsAny x qs

/-- Whether the unknown `x` occurs in one of several descriptions. -/
def mentionsAny (x : String) : List Qubits → Bool
  | [] => false
  | q :: qs => mentions x q || mentionsAny x qs
end

variable {q r : Qubits} {qs : List Qubits}

theorem mentionsAny_iff : mentionsAny x qs ↔ ∃ q ∈ qs, q.mentions x := by
  induction qs with
  | nil => simp [mentionsAny]
  | cons q qs ih => simp [mentionsAny, ih]

/-- A description mentions what its parts mention. -/
theorem mentions_of_part (hr : r ∈ q.parts) (h : r.mentions x) : q.mentions x := by
  cases q with
  | register | fresh => simp [parts] at hr
  | strided | single =>
    obtain rfl := List.mem_singleton.1 hr
    simp [mentions, h]
  | joined qs => exact mentionsAny_iff.2 ⟨r, hr, h⟩

mutual
/-- The size mentions what the description mentions. -/
theorem mentions_size : ∀ {q : Qubits}, q.size.mentions x → q.mentions x
  | .register _, h => by
    rw [size] at h
    exact h
  | .fresh .., h => by
    rw [size] at h
    simp [mentions, h]
  | .strided .., h => by
    rw [size] at h
    simp only [mentions, Bool.or_eq_true]
    rcases Quantity.mentions_div h with h | h
    · exact (Quantity.mentions_sub h).elim (fun h => .inl (.inr h)) fun h => .inl (.inl (.inr h))
    · exact .inr h
  | .single .., h => by simp [size] at h
  | .joined _, h => by
    rw [size] at h
    exact mentionsAny_of_sum h

theorem mentionsAny_of_sum : ∀ {qs : List Qubits},
    (qs.foldr (fun q n => q.size + n) (Quantity.const 0)).mentions x → mentionsAny x qs
  | [], h => by simp at h
  | _ :: _, h => by
    rw [mentionsAny, Bool.or_eq_true]
    exact (Quantity.mentions_add h).imp mentions_size mentionsAny_of_sum
end

end Qubits

/-! ## Unknowns of classical expressions -/

/-- Whether the unknown `x` occurs in a real-valued expression. -/
def RealExpr.mentions (x : String) : RealExpr → Bool
  | .const _ | .pi => false
  | .var y => y == x
  | .ofInt i => i.mentions x
  | .neg a => a.mentions x
  | .add a b | .sub a b | .mul a b | .div a b => a.mentions x || b.mentions x

/-- Whether the unknown `x` occurs in a condition. -/
def Condition.mentions (x : String) : Condition → Bool
  | .const _ => false
  | .var y => y == x
  | .not a => a.mentions x
  | .and a b | .or a b => a.mentions x || b.mentions x
  | .compare _ a b => a.mentions x || b.mentions x

/-- Whether the unknown `x` occurs in a scalar. -/
def Scalar.mentions (x : String) : Scalar → Bool
  | .const .. => false
  | .polar magnitude phase => magnitude.mentions x || phase.mentions x

/-- Whether the unknown `x` occurs in a classical value. -/
def ClassicalValue.mentions (x : String) : ClassicalValue → Bool
  | .int a => a.mentions x
  | .float a => a.mentions x
  | .bool a => a.mentions x
  | .complex a => a.mentions x

/-- Whether the unknown `x` occurs in the bounds of a range. -/
def LoopRange.mentions (x : String) (r : LoopRange) : Bool :=
  r.start.mentions x || r.stop.mentions x || r.step.mentions x

/-! ## Unknowns of operations -/

/-- Whether the unknown `x` occurs in a gate's parameters, or in a call's arguments or the size
    that is declared for it. -/
def Elementary.mentions (x : String) : Elementary → Bool
  | .gate g => g.parameters.any (·.mentions x)
  | .call d args => d.size.mentions x || args.any (·.mentions x)

namespace Operation

mutual
/-- Whether the unknown `x` occurs in an operation. -/
def mentions (x : String) : Operation → Bool
  | .elementary e _ => e.mentions x
  | .sequence ops _ | .combination ops _ => mentionsAny x ops
  | .power base copies _ => mentions x base || copies.mentions x
  | .adjoint base _ => mentions x base
  | .scaled c base _ => c.mentions x || mentions x base
  | .choice control a b _ => control.mentions x || mentions x a || mentions x b

/-- Whether the unknown `x` occurs in one of several operations. -/
def mentionsAny (x : String) : List Operation → Bool
  | [] => false
  | op :: ops => mentions x op || mentionsAny x ops
end

theorem mentionsAny_iff {ops : List Operation} :
    mentionsAny x ops ↔ ∃ op ∈ ops, op.mentions x := by
  induction ops with
  | nil => simp [mentionsAny]
  | cons op ops ih => simp [mentionsAny, ih]

mutual
/-- The size mentions what the operation mentions. -/
theorem mentions_size : ∀ {op : Operation}, op.size.mentions x → op.mentions x
  | .elementary (.gate _) _, h => by simp [size] at h
  | .elementary (.call ..) _, h => by
    rw [size] at h
    simp [mentions, Elementary.mentions, h]
  | .sequence .., h => by
    rw [size] at h
    rw [mentions]
    exact mentionsAny_of_sequenceSize h
  | .combination .., h => by
    rw [size] at h
    rw [mentions]
    exact mentionsAny_of_totalSize h
  | .power .., h => by
    rw [size] at h
    rw [mentions, Bool.or_eq_true]
    exact (Quantity.mentions_mul h).symm.imp_left mentions_size
  | .adjoint .., h => by
    rw [size] at h
    rw [mentions]
    exact mentions_size h
  | .scaled .., h => by
    rw [size] at h
    simp [mentions, mentions_size h]
  | .choice .., h => by
    rw [size] at h
    simp [mentions, mentions_size h]

theorem mentionsAny_of_sequenceSize : ∀ {ops : List Operation},
    (sequenceSize ops).mentions x → mentionsAny x ops
  | [], h => by simp [sequenceSize] at h
  | _ :: _, h => by
    rw [sequenceSize] at h
    rw [mentionsAny, Bool.or_eq_true]
    split at h
    · exact .inl (mentions_size h)
    · exact .inr (mentionsAny_of_sequenceSize h)

theorem mentionsAny_of_totalSize : ∀ {ops : List Operation},
    (totalSize ops).mentions x → mentionsAny x ops
  | [], h => by simp [totalSize] at h
  | _ :: _, h => by
    rw [totalSize] at h
    rw [mentionsAny, Bool.or_eq_true]
    exact (Quantity.mentions_add h).imp mentions_size mentionsAny_of_totalSize
end

end Operation

end QuantumLowering
