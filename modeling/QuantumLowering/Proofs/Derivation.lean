/-
  Lowered code as a derivation that keeps track of the declared qubits.

  * `Emits s code s'`: starting with the stack `s`, the code names usable qubits only, declares
    undeclared qubits only, and ends with the stack `s'`.  One rule for each kind of
    instruction; adjoint regions are one rule for both their markers.
  * `Statement.isFlat`: the primitive instructions of a statement neither have bodies nor mark
    adjoint regions.
  * `lowerCall_emits`, `lowerStatements_emits`: all lowered code has a derivation.

  A property of lowered code is proved by induction on `Emits`, whatever shape of operation
  or statement the code comes from.
-/
import QuantumLowering.Proofs.Visibility
import QuantumLowering.Proofs.Inversion

namespace QuantumLowering

/-- Whether an action neither declares qubits nor bounds an adjoint region. -/
def Action.isPlain : Action → Bool
  | declare _ | beginDagger | endDagger => false
  | _ => true

/-- The code leads from one stack of declared qubits to another. -/
inductive Emits : Scopes → List Instruction → Scopes → Prop
  | nil {s} : Emits s [] s
  | append {s s' s'' a b} : Emits s a s' → Emits s' b s'' → Emits s (a ++ b) s''
  | declare {s q} : q.isDeclarable → ¬ s.isDeclared q → (∀ r ∈ q.parts, s.isUsable r) →
      Emits s [.act (.declare q) none] (s.declare q)
  | act {s a l} : a.isPlain → (∀ q ∈ a.qubits, s.isUsable q) → Emits s [.act a l] s
  | dagger {s s' body l m} : Emits s.enter body s' →
      Emits s ([.act .beginDagger l] ++ body ++ [.act .endDagger m]) s
  | loop {s s' x r body l} : Emits s.enter body s' → Emits s [.loop x r body l] s
  | ifThen {s s' c body l} : Emits s.enter body s' → Emits s [.ifThen c body l] s
  | ifElse {s s' s'' c onTrue onFalse l} : Emits s.enter onTrue s' → Emits s.enter onFalse s'' →
      Emits s [.ifElse c onTrue onFalse l] s
  | within {s s' s'' compute body l} : Emits s.enter compute s' → Emits s' body s'' →
      Emits s [.within compute body l] s

/-- The blocks of a mux one after another in the same frame. -/
inductive Emits.Each : Scopes → List (List Instruction) → Scopes → Prop
  | nil {s} : Emits.Each s [] s
  | cons {s s' s'' b bs} : Emits s b s' → Emits.Each s' bs s'' → Emits.Each s (b :: bs) s''

namespace Emits

variable {s s' : Scopes} {code : List Instruction}

/-- Frames around the innermost one stay as they are. -/
theorem outer_eq (h : Emits s code s') : s'.outer = s.outer := by
  induction h with
  | append _ _ ih₁ ih₂ => exact ih₂.trans ih₁
  | _ => rfl

/-- Leaving the frame opened for a body gives the stack from before. -/
theorem leave_eq (h : Emits s.enter code s') : s'.leave = s := by
  simp [Scopes.leave, h.outer_eq, Scopes.enter]

theorem isDeclared {q : Qubits} (h : Emits s code s') (hq : s.isDeclared q) :
    s'.isDeclared q := by
  induction h with
  | append _ _ ih₁ ih₂ => exact ih₂ (ih₁ hq)
  | declare => simp [hq]
  | _ => exact hq

theorem isUsable {q : Qubits} (h : Emits s code s') (hq : s.isUsable q) : s'.isUsable q := by
  simp only [Scopes.isUsable, Bool.or_eq_true] at hq ⊢
  exact hq.imp_right h.isDeclared

theorem declarations {qs : List Qubits} (h : Scopes.Declares s qs s') :
    Emits s (declarations qs) s' := by
  induction h with
  | nil => exact nil
  | snoc _ hq hn hp ih =>
    rw [QuantumLowering.declarations, List.map_append]
    exact append ih (declare hq hn hp)

theorem use (s : Scopes) (q : Qubits) :
    Emits s (QuantumLowering.declarations (s.use q).1) (s.use q).2 :=
  declarations (s.readies_use q).declares

/-- An instruction on one target, behind the declarations it needs. -/
theorem use_act {a : Action} {q : Qubits} {l : Option Location} (ha : a.isPlain)
    (hq : a.qubits = [q]) :
    Emits s (QuantumLowering.declarations (s.use q).1 ++ [.act a l]) (s.use q).2 :=
  append (use s q) (act ha (by rw [hq]; exact (s.readies_use q).usable))

/-! ## Controls -/

section
variable {l : Option Location} {controls : List Qubits}

theorem togglesFrom (state : Nat) : ∀ (p : Nat) {controls : List Qubits},
    (∀ q ∈ controls, s.isUsable q) → Emits s (Mux.togglesFrom l state p controls) s
  | _, [], _ => nil
  | p, q :: qs, h => by
    have hrest := togglesFrom state (p + 1) fun r hr => h r (List.mem_cons_of_mem _ hr)
    rw [Mux.togglesFrom]
    refine append ?_ hrest
    split
    · refine append (a := [_]) (act rfl ?_) (act rfl ?_) <;> simpa [Action.qubits] using h q
    · exact nil

theorem toggles (state : Nat) (h : ∀ q ∈ controls, s.isUsable q) :
    Emits s (Mux.toggles controls l state) s := by
  unfold Mux.toggles
  split
  · exact nil
  · exact togglesFrom state 0 h

theorem Each.isUsable {blocks : List (List Instruction)} {q : Qubits} (h : Each s blocks s')
    (hq : s.isUsable q) : s'.isUsable q := by
  induction h with
  | nil => exact hq
  | cons hb _ ih => exact ih (hb.isUsable hq)

theorem arms {blocks : List (List Instruction)} (h : Each s blocks s') :
    ∀ state, (∀ q ∈ controls, s.isUsable q) → Emits s (Mux.arms controls l state blocks) s' := by
  induction h with
  | nil => exact fun _ _ => nil
  | cons hb _ ih =>
    intro state hc
    rw [Mux.arms]
    exact append (append (toggles state hc) hb) (ih _ fun q hq => hb.isUsable (hc q hq))

/-- Markers around usable controls, in any number. -/
theorem markers {mark : Qubits → Instruction} (hm : ∀ q ∈ controls, Emits s [mark q] s) :
    Emits s (controls.map mark) s := by
  induction controls with
  | nil => exact nil
  | cons q qs ih =>
    exact append (a := [mark q]) (hm q (by simp)) (ih fun r hr => hm r (by simp [hr]))

theorem linearize {blocks : List (List Instruction)} (h : Each s blocks s')
    (hc : ∀ q ∈ controls, s.isUsable q) (hm : Mux.linearize controls blocks l = .ok code) :
    Emits s code s' := by
  rw [Lowering.linearize_ok hm]
  refine append (append (markers fun q hq => act rfl ?_) (arms h 0 hc))
    (markers fun q hq => act rfl ?_)
  · simpa [Action.qubits] using hc q hq
  · simpa [Action.qubits] using h.isUsable (hc q hq)

end

end Emits

/-! ## Operations -/

namespace Lowering

variable [Fingerprint]

mutual
/-- The code of an operation call has a derivation. -/
theorem lowerCall_emits : ∀ {op : Operation} {target : Qubits} {site : Option Location}
    {s s' : Scopes} {code : List Instruction},
    Yields (lowerCall target site op) s code s' → Emits s code s'
  | .elementary (.gate _) _, _, _, _, _, _, h => by
    rcases lowerCall_gate h with ⟨-, rfl, rfl⟩ | ⟨-, rfl, rfl⟩
    · exact .nil
    · exact .use_act rfl rfl
  | .elementary (.call ..) _, _, _, _, _, _, h => by
    obtain ⟨_, -, rfl, rfl⟩ := lowerCall_call h
    exact .use_act rfl rfl
  | .sequence .., _, _, _, _, _, h => lowerSequence_emits (lowerCall_sequence h)
  | .combination .., _, _, _, _, _, h => by
    obtain ⟨_, -, h⟩ := lowerCall_combination h
    exact lowerParts_emits h
  | .power .., target, _, s, _, _, h => by
    obtain ⟨_, _, _, _, -, -, hbody, rfl, rfl⟩ := lowerCall_power h
    have hbody := lowerCall_emits hbody
    rw [hbody.leave_eq]
    exact .append (.use s target) (.loop hbody)
  | .adjoint .., target, _, s, _, _, h => by
    obtain ⟨_, _, hbody, rfl, rfl⟩ := lowerCall_adjoint h
    have hbody := lowerCall_emits hbody
    rw [hbody.leave_eq]
    exact .append (.use s target) (.dagger hbody)
  | .scaled .., _, _, _, _, _, h => lowerCall_emits (lowerCall_scaled h)
  | .choice control .., target, _, s, _, _, h => by
    obtain ⟨_, _, _, _, hFalse, hTrue, hm, rfl⟩ := lowerCall_choice h
    have hcontrol := (s.readies_use control).usable
    refine .append (.use s control) (.append (.use _ target) (.linearize
      (.cons (lowerCall_emits hFalse) (.cons (lowerCall_emits hTrue) .nil)) (fun q hq => ?_) hm))
    exact (Emits.use _ target).isUsable (hcontrol q hq)

theorem lowerSequence_emits : ∀ {ops : List Operation} {target : Qubits} {site : Option Location}
    {s s' : Scopes} {code : List Instruction},
    Yields (lowerSequence target site ops) s code s' → Emits s code s'
  | [], _, _, _, _, _, h => by obtain ⟨rfl, rfl⟩ := lowerSequence_nil h; exact .nil
  | _ :: _, _, _, _, _, _, h => by
    obtain ⟨-, _, _, _, hfirst, hrest, rfl⟩ := lowerSequence_cons h
    exact .append (lowerCall_emits hfirst) (lowerSequence_emits hrest)

theorem lowerParts_emits : ∀ {ops : List Operation} {target : Qubits} {site : Option Location}
    {start : Quantity} {sizes : List Quantity} {s s' : Scopes} {code : List Instruction},
    Yields (lowerParts target site start sizes ops) s code s' → Emits s code s'
  | [], _, _, _, _, _, _, _, h => by obtain ⟨rfl, rfl⟩ := lowerParts_nil h; exact .nil
  | _ :: _, _, _, _, _, _, _, _, h => by
    rcases lowerParts_cons h with ⟨-, rfl, rfl⟩ | ⟨_, _, _, _, _, _, -, -, hfirst, hrest, rfl⟩
    · exact .nil
    · exact .append (lowerCall_emits hfirst) (lowerParts_emits hrest)
end

end Lowering

/-! ## Statements -/

namespace Statement

mutual
/-- Whether the primitive instructions of a statement have no bodies and do not mark adjoint
    regions. -/
def isFlat : Statement → Bool
  | .primitive (.act .beginDagger _) | .primitive (.act .endDagger _) => false
  | .primitive (.act _ _) | .call .. => true
  | .primitive _ => false
  | .loop _ _ body _ | .ifThen _ body _ | .dagger body _ => allFlat body
  | .ifElse _ onTrue onFalse _ => allFlat onTrue && allFlat onFalse
  | .within compute body _ => allFlat compute && allFlat body
  | .mux _ blocks _ => blocksFlat blocks

/-- `isFlat` of every statement. -/
def allFlat : List Statement → Bool
  | [] => true
  | s :: ss => s.isFlat && allFlat ss

/-- `isFlat` of every statement of every block. -/
def blocksFlat : List (List Statement) → Bool
  | [] => true
  | b :: bs => allFlat b && blocksFlat bs
end

end Statement

namespace Lowering

theorem lowerPrimitive_emits {i : Instruction} {s s' : Scopes} {code : List Instruction}
    (hi : (Statement.primitive i).isFlat) (h : Yields (lowerPrimitive i) s code s') :
    Emits s code s' := by
  obtain ⟨rfl, rfl⟩ := lowerPrimitive_eq h
  have hready := s.readies_useAll i.qubits
  refine .append (.declarations hready.declares) ?_
  rcases i with ⟨a, l⟩ | _ | _ | _ | _
  · cases a <;> first | exact .nil | exact .act rfl hready.usable | simp [Statement.isFlat] at hi
  all_goals simp [Statement.isFlat] at hi

variable [Fingerprint]

mutual
theorem lowerStatement_emits : ∀ {st : Statement} {s s' : Scopes} {code : List Instruction},
    st.isFlat → Yields (lowerStatement st) s code s' → Emits s code s'
  | .primitive _, _, _, _, hf, h => lowerPrimitive_emits hf (by rwa [lowerStatement] at h)
  | .call .., _, _, _, _, h => lowerCall_emits (by rwa [lowerStatement] at h)
  | .loop .., _, _, _, hf, h => by
    obtain ⟨_, _, hbody, rfl, rfl⟩ := lowerStatement_loop h
    have hbody := lowerStatements_emits (by simpa [Statement.isFlat] using hf) hbody
    rw [hbody.leave_eq]; exact .loop hbody
  | .ifThen .., _, _, _, hf, h => by
    obtain ⟨_, _, hbody, rfl, rfl⟩ := lowerStatement_ifThen h
    have hbody := lowerStatements_emits (by simpa [Statement.isFlat] using hf) hbody
    rw [hbody.leave_eq]; exact .ifThen hbody
  | .ifElse .., _, _, _, hf, h => by
    obtain ⟨_, _, _, _, hTrue, hFalse, rfl, rfl⟩ := lowerStatement_ifElse h
    simp only [Statement.isFlat, Bool.and_eq_true] at hf
    have hTrue := lowerStatements_emits hf.1 hTrue
    rw [hTrue.leave_eq] at hFalse
    have hFalse := lowerStatements_emits hf.2 hFalse
    rw [hFalse.leave_eq]; exact .ifElse hTrue hFalse
  | .dagger .., _, _, _, hf, h => by
    obtain ⟨_, _, hbody, rfl, rfl⟩ := lowerStatement_dagger h
    have hbody := lowerStatements_emits (by simpa [Statement.isFlat] using hf) hbody
    rw [hbody.leave_eq]; exact .dagger hbody
  | .within .., _, _, _, hf, h => by
    obtain ⟨_, _, _, _, hcompute, hbody, rfl, rfl⟩ := lowerStatement_within h
    simp only [Statement.isFlat, Bool.and_eq_true] at hf
    have hcompute := lowerStatements_emits hf.1 hcompute
    have hbody := lowerStatements_emits hf.2 hbody
    have hleave := (Emits.append hcompute hbody).leave_eq
    rw [hleave]; exact .within hcompute hbody
  | .mux controls _ _, s, _, _, hf, h => by
    obtain ⟨_, _, hblocks, hm, rfl⟩ := lowerStatement_mux h
    have hready := s.readies_useAll controls
    have hblocks := lowerBlocks_emits (by simpa [Statement.isFlat] using hf) hblocks
    exact .append (.declarations hready.declares) (.linearize hblocks hready.usable hm)

/-- The code of flat statements has a derivation. -/
theorem lowerStatements_emits : ∀ {sts : List Statement} {s s' : Scopes}
    {code : List Instruction}, Statement.allFlat sts →
    Yields (lowerStatements sts) s code s' → Emits s code s'
  | [], _, _, _, _, h => by obtain ⟨rfl, rfl⟩ := lowerStatements_nil h; exact .nil
  | _ :: _, _, _, _, hf, h => by
    obtain ⟨_, _, _, hfirst, hrest, rfl⟩ := lowerStatements_cons h
    simp only [Statement.allFlat, Bool.and_eq_true] at hf
    exact .append (lowerStatement_emits hf.1 hfirst) (lowerStatements_emits hf.2 hrest)

theorem lowerBlocks_emits : ∀ {bs : List (List Statement)} {s s' : Scopes}
    {blocks : List (List Instruction)}, Statement.blocksFlat bs →
    Yields (lowerBlocks bs) s blocks s' → Emits.Each s blocks s'
  | [], _, _, _, _, h => by obtain ⟨rfl, rfl⟩ := lowerBlocks_nil h; exact .nil
  | _ :: _, _, _, _, hf, h => by
    obtain ⟨_, _, _, hfirst, hrest, rfl⟩ := lowerBlocks_cons h
    simp only [Statement.blocksFlat, Bool.and_eq_true] at hf
    exact .cons (lowerStatements_emits hf.1 hfirst) (lowerBlocks_emits hf.2 hrest)
end

end Lowering

end QuantumLowering
