/-
  What a lowering that succeeded has done.

  * `Lowering.yields_bind` and its companions take a successful computation apart.
  * One theorem for each shape of an operation (`lowerCall_gate`, …, `lowerParts_cons`) and for
    each kind of statement (`lowerStatement_loop`, …) names the checks that passed, the parts
    that were lowered, and the code and the stack at the end.

  All properties of lowered code are proved from these theorems.
-/
import QuantumLowering.Lowering

namespace QuantumLowering

namespace Lowering

variable {α β : Type} {s s' : Scopes}

/-! ## Computations -/

/-- The computation succeeds on the stack `s` with the value `a` and leaves the stack `s'`. -/
def Yields (x : Lowering α) (s : Scopes) (a : α) (s' : Scopes) : Prop :=
  (x s).1 = .ok a ∧ (x s).2 = s'

theorem bind_of_error {x : Lowering α} {f : α → Lowering β} {e : LoweringError}
    (hx : x s = (.error e, s')) : (x >>= f) s = (.error e, s') := by
  simp only [bind, ExceptT.bind, ExceptT.mk, StateT.bind, hx]; rfl

theorem bind_of_ok {x : Lowering α} {f : α → Lowering β} {a : α} (hx : x s = (.ok a, s')) :
    (x >>= f) s = f a s' := by
  simp only [bind, ExceptT.bind, ExceptT.mk, StateT.bind, hx]; rfl

theorem yields_bind {x : Lowering α} {f : α → Lowering β} {b : β} :
    Yields (x >>= f) s b s' ↔ ∃ a t, Yields x s a t ∧ Yields (f a) t b s' := by
  rcases hx : x s with ⟨e | a, t⟩
  · simp [Yields, bind_of_error hx, hx]
  · simp only [Yields, bind_of_ok hx, hx, Except.ok.injEq]
    constructor
    · intro h
      exact ⟨a, t, ⟨rfl, rfl⟩, h⟩
    · rintro ⟨_, _, ⟨rfl, rfl⟩, h⟩
      exact h

theorem yields_pure {a b : α} : Yields (pure a) s b s' ↔ a = b ∧ s = s' := by
  have hpure : (pure a : Lowering α) s = (.ok a, s) := rfl
  simp [Yields, hpure]

theorem yields_liftExcept {x : Except LoweringError α} {a : α} :
    Yields (liftExcept x) s a s' ↔ x = .ok a ∧ s = s' := by
  have hlift : (liftExcept x : Lowering α) s = (x, s) := by cases x <;> rfl
  simp [Yields, hlift]

theorem yields_ofFormation {x : Except FormationError α} {a : α} :
    Yields (ofFormation x) s a s' ↔ x = .ok a ∧ s = s' := by
  have hlift : ofFormation x s = (x.mapError .formation, s) := rfl
  cases x with
  | error e =>
    have herror : (Except.error e : Except FormationError α).mapError LoweringError.formation =
      .error (.formation e) := rfl
    simp [Yields, hlift, herror]
  | ok b =>
    have hok : (Except.ok b : Except FormationError α).mapError LoweringError.formation =
      .ok b := rfl
    simp [Yields, hlift, hok]

theorem yields_use {q : Qubits} {code : List Instruction} :
    Yields (use q) s code s' ↔ declarations (s.use q).1 = code ∧ (s.use q).2 = s' := by
  simp [Yields, use]

theorem yields_useAll {qs : List Qubits} {code : List Instruction} :
    Yields (useAll qs) s code s' ↔
      declarations (s.useAll qs).1 = code ∧ (s.useAll qs).2 = s' := by
  simp [Yields, useAll]

theorem yields_nested {x : Lowering α} {a : α} :
    Yields (nested x) s a s' ↔ ∃ t, Yields x s.enter a t ∧ t.leave = s' := by
  simp only [Yields, nested]
  rcases x s.enter with ⟨r, t⟩
  constructor
  · intro h; exact ⟨t, ⟨h.1, rfl⟩, h.2⟩
  · rintro ⟨_, ⟨h, rfl⟩, rfl⟩; exact ⟨h, rfl⟩

/-! ## Checks -/

variable {target : Qubits} {site own : Option Location} {code : List Instruction}

/-- The code of a mux: the blocks behind their ways, between the opening and the closing of
    all controls. -/
theorem linearize_ok {controls : List Qubits} {blocks : List (List Instruction)}
    (h : Mux.linearize controls blocks site = .ok code) :
    code = controls.map (Mux.openControl site · false) ++ Mux.arms controls site 0 blocks ++
      controls.map (Mux.closeControl site) := by
  unfold Mux.linearize at h
  cases hshape : Mux.checkShape controls.length blocks.length with
  | error => simp [hshape, Except.map] at h
  | ok =>
    simp only [hshape, Except.map, Except.ok.injEq] at h
    exact h.symm

/-- A determined element of a product has exactly the size of the target. -/
theorem checkElement_ok {op : Operation} (h : checkElement op target site = .ok ())
    (hd : op.isDetermined) : op.size == target.size := by
  unfold checkElement at h
  split at h
  · simp at h
  · rename_i hn
    simpa [hd, bne] using hn

theorem ofCall_ok {op : Operation} {st : Statement}
    (h : Statement.ofCall op target site = .ok st) :
    op.checkTarget target site = .ok () ∧ st = .call op target site := by
  unfold Statement.ofCall at h
  cases hcheck : op.checkTarget target site with
  | error => simp [hcheck, Except.map] at h
  | ok =>
    simp only [hcheck, Except.map, Except.ok.injEq] at h
    exact ⟨rfl, h.symm⟩

theorem lowerPrimitive_eq {i : Instruction} (h : Yields (lowerPrimitive i) s code s') :
    s' = (s.useAll i.qubits).2 ∧
      code = declarations (s.useAll i.qubits).1 ++ if i.isDeclaration then [] else [i] := by
  simp only [lowerPrimitive, yields_bind, yields_useAll, yields_pure] at h
  obtain ⟨_, _, ⟨rfl, rfl⟩, rfl, rfl⟩ := h
  refine ⟨rfl, ?_⟩
  split <;> simp

/-! ## Operations -/

variable [Fingerprint]

theorem lowerCall_gate {g : Gate}
    (h : Yields (lowerCall target site (.elementary (.gate g) own)) s code s') :
    (g.isIdentity ∧ code = [] ∧ s' = s) ∨
      (¬ g.isIdentity ∧ s' = (s.use target).2 ∧ code = declarations (s.use target).1 ++
        [.act (.apply (.gate g) target) (site.or own)]) := by
  rw [lowerCall] at h
  split at h
  · obtain ⟨rfl, rfl⟩ := yields_pure.1 h; exact .inl ⟨‹_›, rfl, rfl⟩
  · simp only [yields_bind, yields_use, yields_pure] at h
    obtain ⟨_, _, ⟨rfl, rfl⟩, rfl, rfl⟩ := h
    exact .inr ⟨‹_›, rfl, rfl⟩

theorem lowerCall_call {d : Definition} {args : List ClassicalValue}
    (h : Yields (lowerCall target site (.elementary (.call d args) own)) s code s') :
    ∃ resolved, resolveArgs d args target (site.or own) = .ok resolved ∧ s' = (s.use target).2 ∧
      code = declarations (s.use target).1 ++
        [.act (.apply (.call d resolved) target) (site.or own)] := by
  simp only [lowerCall, yields_bind, yields_liftExcept, yields_use, yields_pure] at h
  obtain ⟨resolved, _, ⟨hargs, rfl⟩, _, _, ⟨rfl, rfl⟩, rfl, rfl⟩ := h
  exact ⟨resolved, hargs, rfl, rfl⟩

/-- A call is lowered if its arguments are resolved. -/
theorem yields_lowerCall_call {d : Definition} {args resolved : List ClassicalValue}
    (hargs : resolveArgs d args target (site.or own) = .ok resolved) :
    Yields (lowerCall target site (.elementary (.call d args) own)) s
      (declarations (s.use target).1 ++ [.act (.apply (.call d resolved) target) (site.or own)])
      (s.use target).2 := by
  simp only [lowerCall, hargs, yields_bind, yields_liftExcept, yields_use, yields_pure]
  exact ⟨_, _, ⟨rfl, rfl⟩, _, _, ⟨rfl, rfl⟩, rfl, rfl⟩

theorem lowerCall_sequence {elements : List Operation}
    (h : Yields (lowerCall target site (.sequence elements own)) s code s') :
    Yields (lowerSequence target (site.or own) elements) s code s' := by
  rwa [lowerCall] at h

theorem lowerCall_combination {elements : List Operation}
    (h : Yields (lowerCall target site (.combination elements own)) s code s') :
    ∃ sizes, splitSizes (.combination elements own) elements target (site.or own) = .ok sizes ∧
      Yields (lowerParts target (site.or own) (.const 0) sizes elements) s code s' := by
  simp only [lowerCall, yields_bind, yields_liftExcept] at h
  obtain ⟨sizes, _, ⟨hsizes, rfl⟩, h⟩ := h
  exact ⟨sizes, hsizes, h⟩

/-- The size of the part of a target that one copy acts on. -/
def copySize (base : Operation) (copies : Quantity) (own : Option Location) (target : Qubits)
    (location : Option Location) : Except LoweringError Quantity :=
  if base.isDetermined then .ok base.size
  else equalPart (.power base copies own) copies target location

/-- A tensor power, with both ways to the size of a part in one. -/
theorem lowerCall_power_eq (base : Operation) (copies : Quantity) (own : Option Location)
    (target : Qubits) (site : Option Location) :
    lowerCall target site (.power base copies own) = (do
      let partSize ← liftExcept (copySize base copies own target (site.or own))
      let before ← use target
      let body ← nested do
        let part ← ofFormation
          (copyPart target partSize (powerIndex (.power base copies own)).quantity)
        lowerCall part (site.or own) base
      return before ++ [.loop (powerIndex (.power base copies own)) (.upTo (.const 0) copies) body
        (site.or own)]) := by
  rw [lowerCall, copySize]
  split <;> rfl

theorem lowerCall_power {base : Operation} {copies : Quantity}
    (h : Yields (lowerCall target site (.power base copies own)) s code s') :
    ∃ partSize part body t, copySize base copies own target (site.or own) = .ok partSize ∧
      copyPart target partSize (powerIndex (.power base copies own)).quantity = .ok part ∧
      Yields (lowerCall part (site.or own) base) (s.use target).2.enter body t ∧ s' = t.leave ∧
      code = declarations (s.use target).1 ++
        [.loop (powerIndex (.power base copies own)) (.upTo (.const 0) copies) body
          (site.or own)] := by
  simp only [lowerCall_power_eq, yields_bind, yields_liftExcept, yields_use, yields_nested,
    yields_ofFormation, yields_pure] at h
  obtain ⟨partSize, _, ⟨hsize, rfl⟩, _, _, ⟨rfl, rfl⟩, body, _, ⟨t, ⟨part, _, ⟨hpart, rfl⟩,
    hbody⟩, rfl⟩, rfl, rfl⟩ := h
  exact ⟨partSize, part, body, t, hsize, hpart, hbody, rfl, rfl⟩

/-- The parts of a successful lowering make a successful one. -/
theorem yields_lowerCall_power {base : Operation} {copies partSize : Quantity} {part : Qubits}
    {body : List Instruction} {t : Scopes}
    (hsize : copySize base copies own target (site.or own) = .ok partSize)
    (hpart : copyPart target partSize (powerIndex (.power base copies own)).quantity = .ok part)
    (hbody : Yields (lowerCall part (site.or own) base) (s.use target).2.enter body t) :
    Yields (lowerCall target site (.power base copies own)) s
      (declarations (s.use target).1 ++
        [.loop (powerIndex (.power base copies own)) (.upTo (.const 0) copies) body
          (site.or own)]) t.leave := by
  simp only [lowerCall_power_eq, yields_bind, yields_liftExcept, yields_use, yields_nested,
    yields_ofFormation, yields_pure]
  exact ⟨partSize, _, ⟨hsize, rfl⟩, _, _, ⟨rfl, rfl⟩, body, _,
    ⟨t, ⟨part, _, ⟨hpart, rfl⟩, hbody⟩, rfl⟩, rfl, rfl⟩

theorem lowerCall_adjoint {base : Operation}
    (h : Yields (lowerCall target site (.adjoint base own)) s code s') :
    ∃ body t, Yields (lowerCall target (site.or own) base) (s.use target).2.enter body t ∧
      s' = t.leave ∧ code = declarations (s.use target).1 ++
        ([.act .beginDagger (site.or own)] ++ body ++ [.act .endDagger (site.or own)]) := by
  simp only [lowerCall, yields_bind, yields_use, yields_nested, yields_pure] at h
  obtain ⟨_, _, ⟨rfl, rfl⟩, body, _, ⟨t, hbody, rfl⟩, rfl, rfl⟩ := h
  exact ⟨body, t, hbody, rfl, by simp⟩

theorem lowerCall_scaled {c : Scalar} {base : Operation}
    (h : Yields (lowerCall target site (.scaled c base own)) s code s') :
    Yields (lowerCall target (site.or own) base) s code s' := by
  rwa [lowerCall] at h

theorem lowerCall_choice {control : Qubits} {onTrue onFalse : Operation}
    (h : Yields (lowerCall target site (.choice control onTrue onFalse own)) s code s') :
    ∃ whereFalse whereTrue t choices,
      Yields (lowerCall target (site.or own) onFalse) ((s.use control).2.use target).2 whereFalse t ∧
      Yields (lowerCall target (site.or own) onTrue) t whereTrue s' ∧
      Mux.linearize [control] [whereFalse, whereTrue] (site.or own) = .ok choices ∧
      code = declarations (s.use control).1 ++ (declarations ((s.use control).2.use target).1 ++
        choices) := by
  simp only [lowerCall, yields_bind, yields_use, yields_ofFormation, yields_pure] at h
  obtain ⟨_, _, ⟨rfl, rfl⟩, _, _, ⟨rfl, rfl⟩, whereFalse, t, hF, whereTrue, _, hT, choices, _,
    ⟨hm, rfl⟩, rfl, rfl⟩ := h
  exact ⟨whereFalse, whereTrue, t, choices, hF, hT, hm, by simp⟩

theorem lowerSequence_nil (h : Yields (lowerSequence target site []) s code s') :
    code = [] ∧ s' = s := by
  rw [lowerSequence, yields_pure] at h; exact ⟨h.1.symm, h.2.symm⟩

theorem lowerSequence_cons {op : Operation} {ops : List Operation}
    (h : Yields (lowerSequence target site (op :: ops)) s code s') :
    checkElement op target site = .ok () ∧ ∃ first rest t,
      Yields (lowerCall target site op) s first t ∧
      Yields (lowerSequence target site ops) t rest s' ∧ code = first ++ rest := by
  simp only [lowerSequence, yields_bind, yields_ofFormation, yields_pure] at h
  obtain ⟨_, _, ⟨hcheck, rfl⟩, first, t, hfirst, rest, _, hrest, rfl, rfl⟩ := h
  exact ⟨hcheck, first, rest, t, hfirst, hrest, rfl⟩

theorem lowerParts_nil {start : Quantity} {sizes : List Quantity}
    (h : Yields (lowerParts target site start sizes []) s code s') : code = [] ∧ s' = s := by
  rw [lowerParts, yields_pure] at h; exact ⟨h.1.symm, h.2.symm⟩

theorem lowerParts_cons {start : Quantity} {sizes : List Quantity} {op : Operation}
    {ops : List Operation}
    (h : Yields (lowerParts target site start sizes (op :: ops)) s code s') :
    (sizes = [] ∧ code = [] ∧ s' = s) ∨ ∃ size sizes' part first rest t,
      sizes = size :: sizes' ∧ target.slice start (start + size) = .ok part ∧
      Yields (lowerCall part site op) s first t ∧
      Yields (lowerParts target site (start + size) sizes' ops) t rest s' ∧
      code = first ++ rest := by
  cases sizes with
  | nil =>
    rw [lowerParts, yields_pure] at h
    exact .inl ⟨rfl, h.1.symm, h.2.symm⟩
  | cons size sizes =>
    simp only [lowerParts, yields_bind, yields_ofFormation, yields_pure] at h
    obtain ⟨part, _, ⟨hpart, rfl⟩, first, t, hfirst, rest, _, hrest, rfl, rfl⟩ := h
    exact .inr ⟨size, sizes, part, first, rest, t, rfl, hpart, hfirst, hrest, rfl⟩

/-! ## Statements -/

theorem lowerStatement_loop {index : ClassicalVariable} {range : LoopRange}
    {body : List Statement}
    (h : Yields (lowerStatement (.loop index range body site)) s code s') :
    ∃ body' t, Yields (lowerStatements body) s.enter body' t ∧ s' = t.leave ∧
      code = [.loop index range body' site] := by
  simp only [lowerStatement, yields_bind, yields_nested, yields_pure] at h
  obtain ⟨body', _, ⟨t, hbody, rfl⟩, rfl, rfl⟩ := h
  exact ⟨body', t, hbody, rfl, rfl⟩

theorem lowerStatement_ifThen {condition : Condition} {body : List Statement}
    (h : Yields (lowerStatement (.ifThen condition body site)) s code s') :
    ∃ body' t, Yields (lowerStatements body) s.enter body' t ∧ s' = t.leave ∧
      code = [.ifThen condition body' site] := by
  simp only [lowerStatement, yields_bind, yields_nested, yields_pure] at h
  obtain ⟨body', _, ⟨t, hbody, rfl⟩, rfl, rfl⟩ := h
  exact ⟨body', t, hbody, rfl, rfl⟩

theorem lowerStatement_ifElse {condition : Condition} {onTrue onFalse : List Statement}
    (h : Yields (lowerStatement (.ifElse condition onTrue onFalse site)) s code s') :
    ∃ true' false' t t', Yields (lowerStatements onTrue) s.enter true' t ∧
      Yields (lowerStatements onFalse) t.leave.enter false' t' ∧ s' = t'.leave ∧
      code = [.ifElse condition true' false' site] := by
  simp only [lowerStatement, yields_bind, yields_nested, yields_pure] at h
  obtain ⟨true', _, ⟨t, ht, rfl⟩, false', _, ⟨t', hf, rfl⟩, rfl, rfl⟩ := h
  exact ⟨true', false', t, t', ht, hf, rfl, rfl⟩

theorem lowerStatement_dagger {body : List Statement}
    (h : Yields (lowerStatement (.dagger body site)) s code s') :
    ∃ body' t, Yields (lowerStatements body) s.enter body' t ∧ s' = t.leave ∧
      code = [.act .beginDagger site] ++ body' ++ [.act .endDagger site] := by
  simp only [lowerStatement, yields_bind, yields_nested, yields_pure] at h
  obtain ⟨body', _, ⟨t, hbody, rfl⟩, rfl, rfl⟩ := h
  exact ⟨body', t, hbody, rfl, rfl⟩

theorem lowerStatement_within {compute body : List Statement}
    (h : Yields (lowerStatement (.within compute body site)) s code s') :
    ∃ compute' body' t t', Yields (lowerStatements compute) s.enter compute' t ∧
      Yields (lowerStatements body) t body' t' ∧ s' = t'.leave ∧
      code = [.within compute' body' site] := by
  simp only [lowerStatement, yields_bind, yields_nested, yields_pure] at h
  obtain ⟨_, _, ⟨_, ⟨compute', t, hc, body', t', hb, rfl, rfl⟩, rfl⟩, rfl, rfl⟩ := h
  exact ⟨compute', body', t, t', hc, hb, rfl, rfl⟩

theorem lowerStatement_mux {controls : List Qubits} {blocks : List (List Statement)}
    (h : Yields (lowerStatement (.mux controls blocks site)) s code s') :
    ∃ blocks' choices, Yields (lowerBlocks blocks) (s.useAll controls).2 blocks' s' ∧
      Mux.linearize controls blocks' site = .ok choices ∧
      code = declarations (s.useAll controls).1 ++ choices := by
  simp only [lowerStatement, yields_bind, yields_useAll, yields_ofFormation, yields_pure] at h
  obtain ⟨_, _, ⟨rfl, rfl⟩, blocks', t, hblocks, choices, _, ⟨hm, rfl⟩, rfl, rfl⟩ := h
  exact ⟨blocks', choices, hblocks, hm, rfl⟩

theorem lowerStatements_nil (h : Yields (lowerStatements []) s code s') : code = [] ∧ s' = s := by
  rw [lowerStatements, yields_pure] at h; exact ⟨h.1.symm, h.2.symm⟩

theorem lowerStatements_cons {st : Statement} {sts : List Statement}
    (h : Yields (lowerStatements (st :: sts)) s code s') :
    ∃ first rest t, Yields (lowerStatement st) s first t ∧
      Yields (lowerStatements sts) t rest s' ∧ code = first ++ rest := by
  simp only [lowerStatements, yields_bind, yields_pure] at h
  obtain ⟨first, t, hfirst, rest, _, hrest, rfl, rfl⟩ := h
  exact ⟨first, rest, t, hfirst, hrest, rfl⟩

theorem lowerBlocks_nil {blocks : List (List Instruction)}
    (h : Yields (lowerBlocks []) s blocks s') : blocks = [] ∧ s' = s := by
  rw [lowerBlocks, yields_pure] at h; exact ⟨h.1.symm, h.2.symm⟩

theorem lowerBlocks_cons {b : List Statement} {bs : List (List Statement)}
    {blocks : List (List Instruction)} (h : Yields (lowerBlocks (b :: bs)) s blocks s') :
    ∃ first rest t, Yields (lowerStatements b) s first t ∧
      Yields (lowerBlocks bs) t rest s' ∧ blocks = first :: rest := by
  simp only [lowerBlocks, yields_bind, yields_pure] at h
  obtain ⟨first, t, hfirst, rest, _, hrest, rfl, rfl⟩ := h
  exact ⟨first, rest, t, hfirst, hrest, rfl⟩

theorem lowerBlock_eq_ok {statements : List Statement} (h : lowerBlock statements = .ok code) :
    ∃ t, Yields (lowerStatements statements) Scopes.initial code t :=
  ⟨_, h, rfl⟩

end Lowering

end QuantumLowering
