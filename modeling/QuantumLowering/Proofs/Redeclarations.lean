/-
  What the stream of lowered code declares again.

  The lowering opens a frame for a compute block and closes it behind the body.  In the stream
  a compute block has no scope: the events of its two parts stand among those around it, and
  what they declare stays known until the scope around the block ends.

  * `Instruction.leaveAll`: what the compute blocks of a list have left behind in this way.
  * `Instruction.replaysAnew`: whether the second run of a compute part, which does not repeat
    the declarations of its list, repeats none of those in bodies either.
  * `Instruction.allDeclareAnew`: whether no declaration of the code is one that has been left
    behind, and `replaysAnew` holds at every compute block.
  * `repeated_lowerBlock_iff`: the stream of lowered code declares nothing again if and only if
    `allDeclareAnew` holds.
-/
import QuantumLowering.Proofs.Replay
import QuantumLowering.TextHash

namespace QuantumLowering

namespace Instruction

/-- What compute blocks have left behind after an instruction.  What an adjoint region adds is
    gone with the region. -/
def leave (left : Scopes) : Instruction → Scopes
  | .act .beginDagger _ => left.enter
  | .act .endDagger _ => left.leave
  | .within compute body _ => Event.after left (listEvents compute ++ listEvents body)
  | _ => left

/-- `leave` along a list. -/
def leaveAll (left : Scopes) (code : List Instruction) : Scopes := code.foldl leave left

/-- Whether the second run of a compute part declares only what the block has not left known. -/
def replaysAnew (compute body : List Instruction) : Bool :=
  ((replayEvents compute).flatMap Event.declared).all fun q =>
    !(Event.after Scopes.initial (listEvents compute ++ listEvents body)).isDeclared q

mutual
/-- Whether an instruction declares nothing of what has been left behind, and nothing again
    when compute parts run again. -/
def declaresAnew (left : Scopes) : Instruction → Bool
  | .act (.declare q) _ => !left.isDeclared q
  | .act _ _ => true
  | .loop _ _ body _ | .ifThen _ body _ => allDeclareAnew left body
  | .ifElse _ onTrue onFalse _ => allDeclareAnew left onTrue && allDeclareAnew left onFalse
  | .within compute body _ =>
    allDeclareAnew left compute && allDeclareAnew (leaveAll left compute) body &&
      replaysAnew compute body

/-- `declaresAnew` along a list. -/
def allDeclareAnew (left : Scopes) : List Instruction → Bool
  | [] => true
  | i :: is => i.declaresAnew left && allDeclareAnew (i.leave left) is
end

/-! ## Lists one after another -/

variable {s left : Scopes} {code a b : List Instruction}

@[simp] theorem leaveAll_append : leaveAll left (a ++ b) = leaveAll (leaveAll left a) b :=
  List.foldl_append

theorem leaveAll_singleton {i : Instruction} : leaveAll left [i] = i.leave left := rfl

theorem leaveAll_region {l m : Option Location} :
    leaveAll left ([.act .beginDagger l] ++ code ++ [.act .endDagger m]) =
      (leaveAll left.enter code).leave := by
  simp [leaveAll, leave]

@[simp] theorem allDeclareAnew_append :
    allDeclareAnew left (a ++ b) = (allDeclareAnew left a && allDeclareAnew (leaveAll left a) b) := by
  induction a generalizing left with
  | nil => rfl
  | cons i is ih => simp [allDeclareAnew, leaveAll, ih, Bool.and_assoc]

theorem allDeclareAnew_singleton {i : Instruction} :
    allDeclareAnew left [i] = i.declaresAnew left :=
  Bool.and_true _

theorem allDeclareAnew_region {l m : Option Location} :
    allDeclareAnew left ([.act .beginDagger l] ++ code ++ [.act .endDagger m]) =
      allDeclareAnew left.enter code := by
  simp [allDeclareAnew, declaresAnew, leave]

theorem leave_act {act : Action} {l : Option Location} (ha : act.isPlain) :
    leave left (.act act l) = left := by
  cases act <;> simp_all [leave, Action.isPlain]

theorem declaresAnew_act {act : Action} {l : Option Location} (ha : act.isPlain) :
    declaresAnew left (.act act l) := by
  cases act <;> simp_all [declaresAnew, Action.isPlain]

/-- Actions other than declarations and markers neither declare nor move. -/
theorem after_repeated_events_act {act : Action} {l : Option Location} (ha : act.isPlain) :
    Event.after s (events (.act act l)) = s ∧ Event.repeated s (events (.act act l)) = [] := by
  match act with
  | .apply (.gate g) _ =>
    simp only [events, Action.events]
    split <;> exact ⟨rfl, rfl⟩
  | .encode .. | .apply (.call ..) _ | .beginControl .. | .endControl _ | .measure _
  | .assign .. | .bind .. => exact ⟨rfl, rfl⟩

theorem repeated_within {l : Option Location} : Event.repeated s (events (.within a b l)) =
    Event.repeated s (listEvents a) ++ Event.repeated (Event.after s (listEvents a)) (listEvents b) ++
      Event.repeated (Event.after s (listEvents a ++ listEvents b)).enter (replayEvents a) := by
  rw [events_within, Event.repeated_append, Event.brackets_dagger.repeated, Event.repeated_append]

/-- The second run is the first one with events left out. -/
theorem replayEvents_sublist : ∀ code, (replayEvents code).Sublist (listEvents code)
  | [] => .slnil
  | i :: is => by
    have hrest := replayEvents_sublist is
    rw [replayEvents, listEvents]
    split
    · exact hrest.trans (List.sublist_append_right ..)
    · exact (List.Sublist.refl _).append hrest

end Instruction

open Instruction

variable {s s' t u left : Scopes} {code compute body : List Instruction} {q : Qubits}

/-- What lowered code leaves behind is added to the innermost scope. -/
theorem Emits.leaveAll_eq (h : Emits s code s') :
    ∃ own, ∀ left, leaveAll left code = left.declareAll own := by
  induction h with
  | append _ _ ih₁ ih₂ =>
    obtain ⟨own₁, h₁⟩ := ih₁
    obtain ⟨own₂, h₂⟩ := ih₂
    exact ⟨own₁ ++ own₂, fun left => by simp [h₁, h₂]⟩
  | act ha => exact ⟨[], fun left => leave_act ha⟩
  | dagger _ ih =>
    obtain ⟨own, hown⟩ := ih
    refine ⟨[], fun left => ?_⟩
    rw [leaveAll_region, hown]
    simp [Scopes.leave, Scopes.enter]
  | within h₁ h₂ => exact (h₁.closed.1.append h₂.closed.1).declares
  | _ => exact ⟨[], fun left => rfl⟩

/-! ## The second run of a compute part -/

/-- The stream `es'` read in `u` repeats nothing that `es` does not repeat in `t`, and it
    leaves no more known. -/
structure Event.Spares (es es' : List Event) (t u : Scopes) : Prop where
  repeated : ∀ q ∈ Event.repeated u es', q ∈ Event.repeated t es
  after : ∀ q, (Event.after u es').isDeclared q → (Event.after t es).isDeclared q

/-- A closed stream where no more is known. -/
theorem Event.Closed.spares {es : List Event} (h : Event.Closed es)
    (hut : ∀ q, u.isDeclared q → t.isDeclared q) : Event.Spares es es t u where
  repeated q hq := by
    rw [h.mem_repeated] at hq ⊢
    exact hq.imp_right fun hq => ⟨hq.1, hut q hq.2⟩
  after q hq := by
    obtain ⟨own, hown⟩ := h.declares
    rw [hown, Scopes.isDeclared_declareAll] at hq ⊢
    exact hq.imp_right (hut q)

theorem Event.Spares.append {es es' fs fs' : List Event} (h : Event.Spares es es' t u)
    (h' : Event.Spares fs fs' (Event.after t es) (Event.after u es')) :
    Event.Spares (es ++ fs) (es' ++ fs') t u where
  repeated q hq := by
    rw [Event.repeated_append, List.mem_append] at hq ⊢
    exact hq.imp (h.repeated q) (h'.repeated q)
  after := by simpa using h'.after

/-- Where no more is known, the second run spares what the first one does not repeat. -/
theorem Emits.spares (h : Emits s code s') : ∀ t u, (∀ q, u.isDeclared q → t.isDeclared q) →
    Event.Spares (listEvents code) (replayEvents code) t u := by
  refine Emits.replay_induction ?nil ?append ?declare ?same ?region h
  case nil => exact fun t u hut => ⟨by simp [replayEvents, Event.repeated], hut⟩
  case append =>
    intro a b ih₁ ih₂ t u hut
    have h₁ := ih₁ t u hut
    rw [listEvents_append, replayEvents_append]
    exact h₁.append (ih₂ _ _ h₁.after)
  case declare =>
    intro q _ t u hut
    refine ⟨by simp [replayEvents, isDeclaration, Event.repeated], fun r hr => ?_⟩
    rw [listEvents_singleton]
    exact (Qubits.closed_declarationEvents q).isDeclared_after (hut r hr)
  case same =>
    intro i hi hc t u hut
    simpa [listEvents, replayEvents, hi] using hc.spares hut
  case region =>
    intro body l m hc hc' ih t u hut
    have hbody := ih t.enter u.enter fun q hq => by
      rw [Scopes.isDeclared_enter] at hq ⊢; exact hut q hq
    rw [listEvents_region, replayEvents_region]
    constructor
    · rw [Event.brackets_dagger.repeated, Event.brackets_dagger.repeated]
      exact hbody.repeated
    · rw [Event.brackets_dagger.after hc, Event.brackets_dagger.after hc']
      exact hut

/-- Behind a first run that declared nothing again, the second one declares nothing again if
    and only if the block leaves nothing known of what it declares. -/
theorem Emits.replaysAnew_iff (h : Emits s compute s') (hb : Event.Closed (listEvents body))
    (ht : Event.repeated t (listEvents compute) = []) :
    Event.repeated (Event.after t (listEvents compute ++ listEvents body)).enter
      (replayEvents compute) = [] ↔ replaysAnew compute body := by
  obtain ⟨own, hown⟩ := (h.closed.1.append hb).declares
  have hfirst : Event.repeated Scopes.initial (replayEvents compute) = [] := by
    refine List.eq_nil_iff_forall_not_mem.2 fun q hq => ?_
    have hrepeated := (h.spares t Scopes.initial (by simp)).repeated q hq
    simp [ht] at hrepeated
  -- what the first run has declared anew was not known before the block
  have hnew : ∀ q ∈ (replayEvents compute).flatMap Event.declared, ¬ t.isDeclared q := by
    intro q hq
    obtain ⟨e, he, hq⟩ := List.mem_flatMap.1 hq
    refine (h.closed.1.repeated_eq_nil_iff.1 ht).2 q (List.mem_flatMap.2 ⟨e, ?_, hq⟩)
    exact (replayEvents_sublist compute).subset he
  rw [h.closed.2.repeated_eq_nil_iff, replaysAnew, List.all_eq_true]
  simp only [hfirst, true_and, Scopes.isDeclared_enter, hown, Bool.not_eq_true', ← Bool.not_eq_true,
    Scopes.isDeclared_declareAll, Scopes.isDeclared_initial, Bool.false_eq_true, or_false, not_or]
  exact forall₂_congr fun q hq => and_iff_left (hnew q hq)

/-! ## The stream of lowered code -/

/-- The stream knows what the derivation knows, and what compute blocks have left behind. -/
def Scopes.Joins (t s left : Scopes) : Prop :=
  ∀ q, t.isDeclared q ↔ s.isDeclared q ∨ left.isDeclared q

theorem Scopes.Joins.enter (h : t.Joins s left) : t.enter.Joins s.enter left :=
  fun q => by simpa using h q

/-- A declaration is new for the derivation, so the stream repeats only what has been left
    behind. -/
theorem Emits.repeated_eq_nil_iff (h : Emits s code s') :
    ∀ t left, t.Joins s left →
      (Event.repeated t (listEvents code) = [] ↔ allDeclareAnew left code) ∧
        (Event.after t (listEvents code)).Joins s' (leaveAll left code) := by
  induction h with
  | nil => exact fun t left ht => ⟨by simp [listEvents, Event.repeated, allDeclareAnew], ht⟩
  | append _ _ ih₁ ih₂ =>
    intro t left ht
    obtain ⟨hr₁, hj₁⟩ := ih₁ t left ht
    obtain ⟨hr₂, hj₂⟩ := ih₂ _ _ hj₁
    simp only [listEvents_append, Event.repeated_append, List.append_eq_nil_iff,
      allDeclareAnew_append, Bool.and_eq_true, Event.after_append, leaveAll_append]
    exact ⟨and_congr hr₁ hr₂, hj₂⟩
  | @declare s q hd hn _ =>
    intro t left ht
    have hiff : t.isDeclared q ↔ left.isDeclared q := (ht q).trans (or_iff_right hn)
    simp only [listEvents_singleton, allDeclareAnew_singleton, leaveAll_singleton, events,
      Action.events, Qubits.repeated_declarationEvents hd, Qubits.after_declarationEvents hd]
    constructor
    · simp [declaresAnew, ← Bool.not_eq_true, hiff]
    · intro r
      simp only [Scopes.isDeclared_declare, Bool.or_eq_true, ht r, leave, or_assoc]
  | act ha =>
    intro t left ht
    simp only [listEvents_singleton, allDeclareAnew_singleton, leaveAll_singleton, leave_act ha,
      after_repeated_events_act ha, declaresAnew_act ha, true_and]
    exact ht
  | dagger h ih =>
    intro t left ht
    obtain ⟨own, hown⟩ := h.leaveAll_eq
    obtain ⟨hr, -⟩ := ih t.enter left.enter fun q => by simpa using ht q
    rw [listEvents_region, Event.brackets_dagger.repeated, Event.brackets_dagger.after h.closed.1,
      allDeclareAnew_region, leaveAll_region, hown]
    exact ⟨hr, by simpa [Scopes.leave, Scopes.enter] using ht⟩
  | loop h ih =>
    intro t left ht
    obtain ⟨hr, -⟩ := ih t.enter left ht.enter
    rw [listEvents_singleton, allDeclareAnew_singleton, leaveAll_singleton, events,
      Event.brackets_for.repeated, Event.brackets_for.after h.closed.1, declaresAnew]
    exact ⟨hr, ht⟩
  | ifThen h ih =>
    intro t left ht
    obtain ⟨hr, -⟩ := ih t.enter left ht.enter
    rw [listEvents_singleton, allDeclareAnew_singleton, leaveAll_singleton, events,
      Event.brackets_if.repeated, Event.brackets_if.after h.closed.1, declaresAnew]
    exact ⟨hr, ht⟩
  | ifElse h₁ h₂ ih₁ ih₂ =>
    intro t left ht
    obtain ⟨hr₁, -⟩ := ih₁ t.enter left ht.enter
    obtain ⟨hr₂, -⟩ := ih₂ t.enter left ht.enter
    rw [listEvents_singleton, allDeclareAnew_singleton, leaveAll_singleton, events,
      Event.repeated_branches h₁.closed.1, Event.after_branches h₁.closed.1 h₂.closed.1,
      declaresAnew, List.append_eq_nil_iff, Bool.and_eq_true]
    exact ⟨and_congr hr₁ hr₂, ht⟩
  | @within _ _ _ compute body _ h₁ h₂ ih₁ ih₂ =>
    intro t left ht
    obtain ⟨hr₁, hj₁⟩ := ih₁ t left fun q => by simpa using ht q
    obtain ⟨hr₂, -⟩ := ih₂ _ _ hj₁
    obtain ⟨own, hown⟩ := (h₁.closed.1.append h₂.closed.1).declares
    rw [listEvents_singleton, allDeclareAnew_singleton, leaveAll_singleton, repeated_within,
      after_within h₁.closed.2, ← Event.after_append, declaresAnew, leave, List.append_eq_nil_iff,
      List.append_eq_nil_iff, Bool.and_eq_true, Bool.and_eq_true]
    constructor
    · rw [← hr₁, ← hr₂, and_congr_right_iff]
      exact fun hr => h₁.replaysAnew_iff h₂.closed.1 hr.1
    · intro q
      rw [hown, hown, Scopes.isDeclared_declareAll, Scopes.isDeclared_declareAll, ht q]
      exact or_left_comm

/-- **The stream of lowered code declares nothing again exactly if no declaration repeats what
    a compute block has left behind, at the compute blocks' second runs too.** -/
theorem repeated_lowerBlock_iff [Fingerprint] {statements : List Statement}
    {code : List Instruction} (hf : Statement.allFlat statements)
    (h : lowerBlock statements = .ok code) :
    Event.repeated Scopes.initial (listEvents code) = [] ↔
      allDeclareAnew Scopes.initial code := by
  obtain ⟨s, hs⟩ := Lowering.lowerBlock_eq_ok h
  refine ((Lowering.lowerStatements_emits hf hs).repeated_eq_nil_iff _ _ fun q => ?_).1
  rw [or_self]

/-- A fresh qubit. -/
def ancilla : Qubits := .fresh 0 (.const 1) none

/-- A loop in a compute part: the second run declares the qubit in a loop of its own. -/
theorem repeated_lowerBlock_loop :
    Event.repeated Scopes.initial (listEvents
      [.within [.loop ⟨"i", .int⟩ (.upTo (.const 0) (.const 2))
        [.act (.declare ancilla) none, .act (.apply (.gate .x) ancilla) none] none] [] none]) =
      [] :=
  (@repeated_lowerBlock_iff _ [.within [.loop ⟨"i", .int⟩ (.upTo (.const 0) (.const 2))
    [.call (.ofGate .x) ancilla none] none] [] none] _ rfl rfl).2 rfl

/-- A fresh qubit in a compute part and again behind the block: its two declarations stand in
    one scope of the stream. -/
theorem repeated_lowerBlock_twice :
    lowerBlock [.within [.call (.ofGate .x) ancilla none] [] none,
          .call (.ofGate .x) ancilla none] =
        .ok [.within [.act (.declare ancilla) none, .act (.apply (.gate .x) ancilla) none] [] none,
          .act (.declare ancilla) none, .act (.apply (.gate .x) ancilla) none] ∧
      Event.repeated Scopes.initial (listEvents
        [.within [.act (.declare ancilla) none, .act (.apply (.gate .x) ancilla) none] [] none,
          .act (.declare ancilla) none, .act (.apply (.gate .x) ancilla) none]) = [ancilla] := by
  refine ⟨rfl, ?_⟩
  simp [ancilla, listEvents, replayEvents, events, Action.events, isDeclaration,
    Qubits.declarationEvents, Gate.isIdentity, Event.repeated, Event.declared, Event.move,
    Scopes.isDeclared, Scopes.frames, Scopes.enter, Scopes.leave, Scopes.declare, Scopes.initial]

end QuantumLowering
