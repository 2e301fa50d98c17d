/-
  The event stream of lowered code, and the compute parts that run a second time.

  * `Instruction.regionDeclarations`: what a list declares inside its adjoint regions.
  * `Instruction.canReplay`: whether the second run of a compute part, which does not repeat
    the declarations of its list, finds all of those that it needs still visible.
  * `Instruction.allReplay`: `canReplay` at every compute block of the code.
  * `run_lowerBlock_iff`: the stream of lowered code declares before use if and only if
    `allReplay` holds.

  Declarations outside all adjoint regions of a compute part stay visible until its second
  run.  Those inside a region are gone with the region, and the second run misses them unless
  something else has declared them again.
-/
import QuantumLowering.Proofs.Derivation
import QuantumLowering.Proofs.Streams
import QuantumLowering.TextHash

namespace QuantumLowering

namespace Instruction

/-- The qubits that a list declares itself, in its adjoint regions or outside. -/
def ownDeclarations : List Instruction → List Qubits
  | [] => []
  | .act (.declare q) _ :: is => q :: ownDeclarations is
  | _ :: is => ownDeclarations is

/-- The qubits that a list declares in its adjoint regions, of which `depth` are open. -/
def regionDeclarations : Nat → List Instruction → List Qubits
  | _, [] => []
  | depth, .act .beginDagger _ :: is => regionDeclarations (depth + 1) is
  | depth, .act .endDagger _ :: is => regionDeclarations (depth - 1) is
  | depth, .act (.declare q) _ :: is =>
    (if depth = 0 then [] else [q]) ++ regionDeclarations depth is
  | depth, _ :: is => regionDeclarations depth is

/-- Whether the second run of a compute part finds the declarations that were made in its
    adjoint regions and that it needs. -/
def canReplay (s : Scopes) (compute : List Instruction) : Bool :=
  (regionDeclarations 0 compute).all fun q =>
    s.isDeclared q || !(Event.missing Scopes.initial (replayEvents compute)).contains q

mutual
/-- Whether every compute block of an instruction can run its compute part again. -/
def replays (s : Scopes) : Instruction → Bool
  | .act _ _ => true
  | .loop _ _ body _ | .ifThen _ body _ => allReplay s.enter body
  | .ifElse _ onTrue onFalse _ => allReplay s.enter onTrue && allReplay s.enter onFalse
  | .within compute body _ =>
    let t := Event.after s (listEvents compute)
    allReplay s compute && allReplay t body && canReplay (Event.after t (listEvents body)) compute

/-- `replays` along a list. -/
def allReplay (s : Scopes) : List Instruction → Bool
  | [] => true
  | i :: is => i.replays s && allReplay (Event.after s i.events) is
end

/-! ## Lists one after another -/

variable {s s' : Scopes} {code a b : List Instruction}

@[simp] theorem listEvents_append : listEvents (a ++ b) = listEvents a ++ listEvents b := by
  induction a with
  | nil => rfl
  | cons i is ih => simp [listEvents, ih]

@[simp] theorem replayEvents_append :
    replayEvents (a ++ b) = replayEvents a ++ replayEvents b := by
  induction a with
  | nil => rfl
  | cons i is ih => simp only [List.cons_append, replayEvents, ih]; split <;> simp

theorem listEvents_region {l m : Option Location} :
    listEvents ([.act .beginDagger l] ++ code ++ [.act .endDagger m]) =
      [.beginDagger] ++ listEvents code ++ [.endDagger] := by
  simp [listEvents, events, Action.events]

theorem replayEvents_region {l m : Option Location} :
    replayEvents ([.act .beginDagger l] ++ code ++ [.act .endDagger m]) =
      [.beginDagger] ++ replayEvents code ++ [.endDagger] := by
  simp [replayEvents, isDeclaration, events, Action.events]

@[simp] theorem ownDeclarations_append :
    ownDeclarations (a ++ b) = ownDeclarations a ++ ownDeclarations b := by
  fun_induction ownDeclarations a <;> simp_all [ownDeclarations]

theorem ownDeclarations_region {body : List Instruction} {l m : Option Location} :
    ownDeclarations ([.act .beginDagger l] ++ body ++ [.act .endDagger m]) =
      ownDeclarations body := by
  simp [ownDeclarations]

@[simp] theorem allReplay_append :
    allReplay s (a ++ b) = (allReplay s a && allReplay (Event.after s (listEvents a)) b) := by
  induction a generalizing s with
  | nil => rfl
  | cons i is ih => simp [allReplay, listEvents, ih, Bool.and_assoc]

theorem listEvents_singleton {i : Instruction} : listEvents [i] = i.events :=
  List.append_nil _

theorem allReplay_singleton {i : Instruction} : allReplay s [i] = i.replays s :=
  Bool.and_true _

theorem allReplay_region {l m : Option Location} :
    allReplay s ([.act .beginDagger l] ++ code ++ [.act .endDagger m]) =
      allReplay s.enter code := by
  simp [allReplay, replays, events, Action.events, Event.move]

/-! ## The streams of lowered code are closed -/

theorem isDeclaration_act {a : Action} {l : Option Location} (ha : a.isPlain) :
    (act a l).isDeclaration = false := by
  cases a <;> simp_all [isDeclaration, Action.isPlain]

theorem closed_events_act {a : Action} {l : Option Location} (ha : a.isPlain) :
    Event.Closed (events (.act a l)) := by
  have same : ∀ {e : Event}, (∀ s, e.move s = s) → Event.Closed [e] := fun h => .single ⟨[], h⟩
  match a with
  | .apply (.gate g) _ =>
    simp only [events, Action.events]
    split
    · exact .nil
    · exact same fun _ => rfl
  | .encode .. | .apply (.call ..) _ | .beginControl .. | .endControl _ | .measure _
  | .assign .. | .bind .. => exact same fun _ => rfl

theorem missing_events_act {a : Action} {l : Option Location} (ha : a.isPlain)
    (hq : ∀ q ∈ a.qubits, s.isUsable q) : Event.missing s (events (.act a l)) = [] := by
  match a with
  | .apply (.gate g) _ =>
    simp only [events, Action.events]
    split
    · rfl
    · simpa [Event.missing, Event.uses, Action.qubits] using hq
  | .encode .. | .apply (.call ..) _ | .beginControl .. | .endControl _ | .measure _
  | .bind .. => simpa [events, Action.events, Event.missing, Event.uses, Action.qubits] using hq
  | .assign .. => rfl

theorem closed_loop (h : Event.Closed (listEvents code)) (x : ClassicalVariable) (r : LoopRange)
    (l : Option Location) : Event.Closed (events (.loop x r code l)) := by
  rw [events]; exact h.enclose Event.brackets_for

theorem closed_ifThen (h : Event.Closed (listEvents code)) (c : Condition)
    (l : Option Location) : Event.Closed (events (.ifThen c code l)) := by
  rw [events]; exact h.enclose Event.brackets_if

theorem closed_ifElse (ha : Event.Closed (listEvents a)) (hb : Event.Closed (listEvents b))
    (c : Condition) (l : Option Location) : Event.Closed (events (.ifElse c a b l)) := by
  rw [events]; exact ha.branches hb

theorem events_within {l : Option Location} : events (.within a b l) =
    listEvents a ++ listEvents b ++ ([.beginDagger] ++ replayEvents a ++ [.endDagger]) := by
  simp [events]

theorem missing_within {l : Option Location} : Event.missing s (events (.within a b l)) =
    Event.missing s (listEvents a) ++ Event.missing (Event.after s (listEvents a)) (listEvents b) ++
      Event.missing (Event.after (Event.after s (listEvents a)) (listEvents b)).enter
        (replayEvents a) := by
  rw [events_within, Event.missing_append, Event.brackets_dagger.missing, Event.missing_append,
    Event.after_append]

theorem after_within (hr : Event.Closed (replayEvents a)) {l : Option Location} :
    Event.after s (events (.within a b l)) =
      Event.after (Event.after s (listEvents a)) (listEvents b) := by
  rw [events_within, Event.after_append, Event.brackets_dagger.after hr, Event.after_append]

theorem closed_within (ha : Event.Closed (listEvents a)) (hb : Event.Closed (listEvents b))
    (hr : Event.Closed (replayEvents a)) (l : Option Location) :
    Event.Closed (events (.within a b l)) := by
  rw [events_within]
  exact (ha.append hb).append (hr.enclose Event.brackets_dagger)

end Instruction

open Instruction

/-- Both runs of lowered code close the scopes they open. -/
theorem Emits.closed {s s' : Scopes} {code : List Instruction} (h : Emits s code s') :
    Event.Closed (listEvents code) ∧ Event.Closed (replayEvents code) := by
  have single : ∀ {i : Instruction}, i.isDeclaration = false → Event.Closed i.events →
      Event.Closed (listEvents [i]) ∧ Event.Closed (replayEvents [i]) := fun hi h => by
    simp [listEvents, replayEvents, hi, h]
  induction h with
  | nil => exact ⟨.nil, .nil⟩
  | append _ _ ih₁ ih₂ => simpa using ⟨ih₁.1.append ih₂.1, ih₁.2.append ih₂.2⟩
  | declare =>
    simpa [listEvents, replayEvents, isDeclaration, events, Action.events] using
      ⟨Qubits.closed_declarationEvents _, Event.Closed.nil⟩
  | act ha => exact single (isDeclaration_act ha) (closed_events_act ha)
  | dagger _ ih =>
    rw [listEvents_region, replayEvents_region]
    exact ⟨ih.1.enclose Event.brackets_dagger, ih.2.enclose Event.brackets_dagger⟩
  | loop _ ih => exact single rfl (closed_loop ih.1 ..)
  | ifThen _ ih => exact single rfl (closed_ifThen ih.1 ..)
  | ifElse _ _ ih₁ ih₂ => exact single rfl (closed_ifElse ih₁.1 ih₂.1 ..)
  | within _ _ ih₁ ih₂ => exact single rfl (closed_within ih₁.1 ih₂.1 ih₁.2 _)

/-! ## What the second run misses -/

variable {s s' t u : Scopes} {code compute : List Instruction} {q : Qubits}

/-- Induction over lowered code as the two runs of a compute part read it: the second run leaves
    out declarations, goes into adjoint regions, and repeats every other instruction as it is. -/
@[elab_as_elim]
theorem Emits.replay_induction {P : List Instruction → Prop} (nil : P [])
    (append : ∀ {a b}, P a → P b → P (a ++ b))
    (declare : ∀ {q}, q.isDeclarable → P [.act (.declare q) none])
    (same : ∀ {i}, i.isDeclaration = false → Event.Closed i.events → P [i])
    (region : ∀ {body l m}, Event.Closed (listEvents body) → Event.Closed (replayEvents body) →
      P body → P ([.act .beginDagger l] ++ body ++ [.act .endDagger m]))
    (h : Emits s code s') : P code := by
  induction h with
  | nil => exact nil
  | append _ _ ih₁ ih₂ => exact append ih₁ ih₂
  | declare hq => exact declare hq
  | act ha => exact same (isDeclaration_act ha) (closed_events_act ha)
  | dagger h ih => exact region h.closed.1 h.closed.2 ih
  | loop h => exact same rfl (closed_loop h.closed.1 ..)
  | ifThen h => exact same rfl (closed_ifThen h.closed.1 ..)
  | ifElse h₁ h₂ => exact same rfl (closed_ifElse h₁.closed.1 h₂.closed.1 ..)
  | within h₁ h₂ => exact same rfl (closed_within h₁.closed.1 h₂.closed.1 h₁.closed.2 _)

/-- Lowered code closes the adjoint regions it opens. -/
theorem Emits.regionDeclarations_append (h : Emits s code s') :
    ∀ depth rest, regionDeclarations depth (code ++ rest) =
      regionDeclarations depth code ++ regionDeclarations depth rest := by
  induction h with
  | nil => simp [regionDeclarations]
  | append _ _ ih₁ ih₂ => simp [ih₁, ih₂]
  | @act _ a _ ha => cases a <;> simp_all [regionDeclarations, Action.isPlain]
  | dagger _ ih => simp [regionDeclarations, ih]
  | _ => simp [regionDeclarations]

theorem Emits.regionDeclarations_region {l m : Option Location} (h : Emits s code s')
    (depth : Nat) :
    regionDeclarations depth ([.act .beginDagger l] ++ code ++ [.act .endDagger m]) =
      regionDeclarations (depth + 1) code := by
  simp [regionDeclarations, h.regionDeclarations_append]

theorem Emits.mem_regionDeclarations (h : Emits s code s') :
    ∀ depth, q ∈ ownDeclarations code → q ∈ regionDeclarations (depth + 1) code := by
  induction h with
  | nil => simp [ownDeclarations]
  | append h₁ _ ih₁ ih₂ =>
    intro depth hq
    rw [h₁.regionDeclarations_append, List.mem_append]
    exact (List.mem_append.1 (ownDeclarations_append ▸ hq)).imp (ih₁ depth) (ih₂ depth)
  | declare => simp [ownDeclarations, regionDeclarations]
  | @act _ a _ ha => cases a <;> simp_all [ownDeclarations, Action.isPlain]
  | dagger h ih =>
    intro depth hq
    rw [ownDeclarations_region] at hq
    rw [h.regionDeclarations_region]
    exact ih _ hq
  | _ => simp [ownDeclarations]

/-- What a list declares outside its adjoint regions stays visible. -/
theorem Emits.region_or_after (h : Emits s code s') (hq : q ∈ ownDeclarations code) :
    q ∈ regionDeclarations 0 code ∨ ∀ t, (Event.after t (listEvents code)).isDeclared q := by
  induction h with
  | nil => simp [ownDeclarations] at hq
  | append h₁ h₂ ih₁ ih₂ =>
    simp only [h₁.regionDeclarations_append, List.mem_append, listEvents_append,
      Event.after_append]
    rcases List.mem_append.1 (ownDeclarations_append ▸ hq) with hq | hq
    · exact (ih₁ hq).imp .inl fun k t => h₂.closed.1.isDeclared_after (k t)
    · exact (ih₂ hq).imp .inr fun k t => k _
  | declare hd =>
    obtain rfl : q = _ := by simpa [ownDeclarations] using hq
    exact .inr fun t => by simp [listEvents, events, Action.events,
      Qubits.after_declarationEvents hd]
  | @act _ a _ ha => cases a <;> simp_all [ownDeclarations, Action.isPlain]
  | dagger h =>
    rw [ownDeclarations_region] at hq
    rw [h.regionDeclarations_region]
    exact .inl (h.mem_regionDeclarations _ hq)
  | _ => simp [ownDeclarations] at hq

/-- What is declared in `s` is declared in `t`, or else satisfies `K`. -/
def Scopes.Covers (K : Qubits → Prop) (s t : Scopes) : Prop :=
  ∀ q, s.isDeclared q → t.isDeclared q ∨ K q

/-- The stream `es'` read in `u` misses what `es` misses in `t`, and possibly what satisfies
    `K`; afterwards it still covers what `es` has declared. -/
structure Event.Follows (K : Qubits → Prop) (es es' : List Event) (t u : Scopes) : Prop where
  missing : ∀ q ∈ Event.missing u es', q ∈ Event.missing t es ∨ K q
  after : Scopes.Covers K (Event.after t es) (Event.after u es')

/-- A closed stream follows itself. -/
theorem Event.Closed.follows {es : List Event} {K : Qubits → Prop} (h : Event.Closed es)
    (hK : Scopes.Covers K t u) : Event.Follows K es es t u where
  missing q hq := by
    obtain ⟨hq, hu⟩ := (h.mem_missing u q).1 hq
    by_cases ht : t.isUsable q
    · have hd := h.isDeclarable_of_mem hq
      simp only [Scopes.isUsable, hd, Bool.not_true, Bool.false_or] at ht hu
      exact .inr ((hK q ht).resolve_left hu)
    · exact .inl ((h.mem_missing t q).2 ⟨hq, ht⟩)
  after q hq := by
    obtain ⟨own, hown⟩ := h.declares
    rw [hown, Scopes.isDeclared_declareAll] at hq ⊢
    exact hq.elim (fun k => .inl (.inl k)) fun k => (hK q k).imp .inr id

theorem Event.Follows.append {es es' fs fs' : List Event} {K : Qubits → Prop}
    (h : Event.Follows K es es' t u)
    (h' : Event.Follows K fs fs' (Event.after t es) (Event.after u es')) :
    Event.Follows K (es ++ fs) (es' ++ fs') t u where
  missing q hq := by
    simp only [Event.missing_append, List.mem_append] at hq ⊢
    rcases hq with hq | hq
    · exact (h.missing q hq).imp_left .inl
    · exact (h'.missing q hq).imp_left .inr
  after := by simpa using h'.after

theorem Event.Follows.enclose {o c : Event} {es es' : List Event} {K : Qubits → Prop}
    (hb : Event.Brackets o c) (he : Event.Closed es) (he' : Event.Closed es')
    (hK : Scopes.Covers K t u) (h : Event.Follows K es es' t.enter u.enter) :
    Event.Follows K ([o] ++ es ++ [c]) ([o] ++ es' ++ [c]) t u where
  missing := by rw [hb.missing, hb.missing]; exact h.missing
  after := by rw [hb.after he, hb.after he']; exact hK

/-- The second run follows the first one, but for what the list declares itself. -/
theorem Emits.follows {K : Qubits → Prop} (h : Emits s code s') :
    (∀ q ∈ ownDeclarations code, ∀ r, r == q → K r) → ∀ t u, Scopes.Covers K t u →
      Event.Follows K (listEvents code) (replayEvents code) t u := by
  refine Emits.replay_induction ?nil ?append ?declare ?same ?region h
  case nil => exact fun _ t u hK => ⟨by simp [replayEvents, Event.missing], hK⟩
  case append =>
    intro a b ih₁ ih₂ hown t u hK
    simp only [ownDeclarations_append, List.mem_append] at hown
    have h₁ := ih₁ (fun q hq => hown q (.inl hq)) t u hK
    rw [listEvents_append, replayEvents_append]
    exact h₁.append (ih₂ (fun q hq => hown q (.inr hq)) _ _ h₁.after)
  case declare =>
    intro q hd hown t u hK
    refine ⟨by simp [replayEvents, isDeclaration, Event.missing], fun r hr => ?_⟩
    simp only [listEvents, events, Action.events, List.append_nil,
      Qubits.after_declarationEvents hd, Scopes.isDeclared_declare, Bool.or_eq_true] at hr
    rcases hr with hr | hr
    · exact .inr (hown q (by simp [ownDeclarations]) r hr)
    · exact hK r hr
  case same =>
    intro i hi hc _ t u hK
    simpa [listEvents, replayEvents, hi] using hc.follows hK
  case region =>
    intro body l m hc hc' ih hown t u hK
    rw [ownDeclarations_region] at hown
    have hbody := ih hown t.enter u.enter fun q hq => by
      rw [Scopes.isDeclared_enter] at hq ⊢; exact hK q hq
    rw [listEvents_region, replayEvents_region]
    exact hbody.enclose Event.brackets_dagger hc hc' hK

/-! ## The stream of lowered code -/

/-- The second run of a compute part misses nothing if and only if it finds the declarations
    of its adjoint regions. -/
theorem Emits.canReplay_iff (h : Emits s compute s') (ht : Event.missing t (listEvents compute) = [])
    (hu : ∀ q, (Event.after t (listEvents compute)).isDeclared q → u.isDeclared q) :
    (Event.missing u (replayEvents compute) = [] ↔ canReplay u compute) := by
  -- whatever the second run needs is known from the first one or declared in a region
  have hK := h.follows (K := fun q => u.isDeclared q ∨ ∃ r ∈ regionDeclarations 0 compute, q == r)
    (fun q hq r hr => by
      rcases h.region_or_after hq with hq | hq
      · exact .inr ⟨q, hq, hr⟩
      · exact .inl (Scopes.isDeclared_congr hr ▸ hu q (hq t)))
    t Scopes.initial fun q hq => .inr (.inl (hu q (h.closed.1.isDeclared_after hq)))
  rw [h.closed.2.missing_eq_nil_iff, canReplay, List.all_eq_true]
  simp only [Bool.or_eq_true, Bool.not_eq_true', ← Bool.not_eq_true,
    List.contains_iff_exists_mem_beq]
  constructor
  · intro hall q _
    by_cases hq : ∃ r ∈ Event.missing Scopes.initial (replayEvents compute), q == r
    · obtain ⟨r, hr, he⟩ := hq
      exact .inl (Scopes.isDeclared_congr he ▸ hall r hr)
    · exact .inr hq
  · intro hall q hq
    rcases (hK.missing q hq).resolve_left (by simp [ht]) with hd | ⟨r, hr, he⟩
    · exact hd
    · rcases hall r hr with hd | hn
      · exact Scopes.isDeclared_congr he ▸ hd
      · exact absurd ⟨q, hq, BEq.symm he⟩ hn

/-- From at least the declarations of the derivation, the stream misses nothing if and only if
    every compute block can run its compute part again. -/
theorem Emits.missing_eq_nil_iff (h : Emits s code s') :
    ∀ t, (∀ q, s.isDeclared q → t.isDeclared q) →
      (Event.missing t (listEvents code) = [] ↔ allReplay t code) ∧
        ∀ q, s'.isDeclared q → (Event.after t (listEvents code)).isDeclared q := by
  have usable : ∀ {s t : Scopes} {q}, (∀ q, s.isDeclared q → t.isDeclared q) → s.isUsable q →
      t.isUsable q := fun hst hq => by
    simp only [Scopes.isUsable, Bool.or_eq_true] at hq ⊢
    exact hq.imp_right (hst _)
  induction h with
  | nil => exact fun t hst => ⟨by simp [listEvents, Event.missing, allReplay], hst⟩
  | append _ _ ih₁ ih₂ =>
    intro t hst
    obtain ⟨hm₁, hs₁⟩ := ih₁ t hst
    obtain ⟨hm₂, hs₂⟩ := ih₂ _ hs₁
    simp only [listEvents_append, Event.missing_append, List.append_eq_nil_iff, allReplay_append,
      Bool.and_eq_true, Event.after_append]
    exact ⟨and_congr hm₁ hm₂, hs₂⟩
  | declare hd _ hp =>
    intro t hst
    simp only [listEvents, events, Action.events, List.append_nil, allReplay, replays,
      Qubits.missing_declarationEvents fun r hr => usable hst (hp r hr),
      Qubits.after_declarationEvents hd, Scopes.isDeclared_declare, Bool.or_eq_true]
    exact ⟨by simp, fun q hq => hq.imp_right (hst q)⟩
  | act ha hq =>
    intro t hst
    simp only [listEvents, List.append_nil, allReplay, replays,
      missing_events_act ha fun r hr => usable hst (hq r hr)]
    exact ⟨by simp, fun q hq => (closed_events_act ha).isDeclared_after (hst q hq)⟩
  | dagger h ih =>
    intro t hst
    obtain ⟨hm, -⟩ := ih t.enter (by simpa using hst)
    rw [listEvents_region, Event.brackets_dagger.missing, Event.brackets_dagger.after h.closed.1,
      allReplay_region]
    exact ⟨hm, hst⟩
  | loop h ih =>
    intro t hst
    obtain ⟨hm, -⟩ := ih t.enter (by simpa using hst)
    rw [listEvents_singleton, allReplay_singleton, events, Event.brackets_for.missing,
      Event.brackets_for.after h.closed.1, replays]
    exact ⟨hm, hst⟩
  | ifThen h ih =>
    intro t hst
    obtain ⟨hm, -⟩ := ih t.enter (by simpa using hst)
    rw [listEvents_singleton, allReplay_singleton, events, Event.brackets_if.missing,
      Event.brackets_if.after h.closed.1, replays]
    exact ⟨hm, hst⟩
  | ifElse h₁ h₂ ih₁ ih₂ =>
    intro t hst
    obtain ⟨hm₁, -⟩ := ih₁ t.enter (by simpa using hst)
    obtain ⟨hm₂, -⟩ := ih₂ t.enter (by simpa using hst)
    rw [listEvents_singleton, allReplay_singleton, events, Event.missing_branches h₁.closed.1,
      Event.after_branches h₁.closed.1 h₂.closed.1, replays, List.append_eq_nil_iff,
      Bool.and_eq_true]
    exact ⟨and_congr hm₁ hm₂, hst⟩
  | @within _ _ _ compute body _ h₁ h₂ ih₁ ih₂ =>
    intro t hst
    obtain ⟨hm₁, hs₁⟩ := ih₁ t (by simpa using hst)
    obtain ⟨hm₂, -⟩ := ih₂ _ hs₁
    have hu : ∀ q, (Event.after t (listEvents compute)).isDeclared q →
        (Event.after (Event.after t (listEvents compute)) (listEvents body)).isDeclared q :=
      fun q hq => h₂.closed.1.isDeclared_after hq
    rw [listEvents_singleton, allReplay_singleton, missing_within, after_within h₁.closed.2, replays,
      List.append_eq_nil_iff, List.append_eq_nil_iff, Bool.and_eq_true, Bool.and_eq_true]
    refine ⟨?_, fun q hq => hu q (h₁.closed.1.isDeclared_after (hst q hq))⟩
    rw [← hm₁, ← hm₂, and_congr_right_iff]
    intro ht
    rw [h₁.canReplay_iff ht.1 fun q hq => (Scopes.isDeclared_enter _ q).trans (hu q hq)]
    simp [canReplay]

/-- **The stream of lowered code declares before use exactly if every compute part finds what
    was declared in its adjoint regions when it runs again.** -/
theorem run_lowerBlock_iff [Fingerprint] {statements : List Statement} {code : List Instruction}
    (hf : Statement.allFlat statements) (h : lowerBlock statements = .ok code) :
    (Event.run Scopes.initial (listEvents code)).isSome ↔ allReplay Scopes.initial code := by
  obtain ⟨s, hs⟩ := Lowering.lowerBlock_eq_ok h
  rw [Event.run_isSome_iff]
  exact ((Lowering.lowerStatements_emits hf hs).missing_eq_nil_iff _ fun _ hq => hq).1

/-- The first qubit of a register of two. -/
def firstOfTwo : Qubits := .single (.register ⟨"q", .const 2, .owner⟩) (.const 0)

theorem run_lowerBlock_plain :
    (Event.run Scopes.initial (listEvents
        [.within [.act (.declare firstOfTwo) none, .act (.apply (.gate .x) firstOfTwo) none] []
          none])).isSome ↔
      allReplay Scopes.initial
        [.within [.act (.declare firstOfTwo) none, .act (.apply (.gate .x) firstOfTwo) none] []
          none] :=
  @run_lowerBlock_iff _ [.within [.call (.ofGate .x) firstOfTwo none] [] none] _ rfl rfl

/-- An adjoint region in a compute part: the second run names the element, whose declaration
    is gone with the region. -/
theorem run_lowerBlock_region :
    lowerBlock [.within [.dagger [.call (.ofGate .x) firstOfTwo none] none] [] none] =
        .ok [.within [.act .beginDagger none, .act (.declare firstOfTwo) none,
          .act (.apply (.gate .x) firstOfTwo) none, .act .endDagger none] [] none] ∧
      Event.run Scopes.initial (listEvents
        [.within [.act .beginDagger none, .act (.declare firstOfTwo) none,
          .act (.apply (.gate .x) firstOfTwo) none, .act .endDagger none] [] none]) = none := by
  refine ⟨rfl, ?_⟩
  rw [← Option.not_isSome_iff_eq_none, Event.run_isSome_iff]
  simp [firstOfTwo, listEvents, replayEvents, events, Action.events, isDeclaration,
    Qubits.declarationEvents, Qubits.isDeclarable, Gate.isIdentity, Event.missing, Event.uses,
    Event.move, Scopes.isUsable, Scopes.isDeclared, Scopes.frames, Scopes.leave, Scopes.enter,
    Scopes.declare, Scopes.initial]

end QuantumLowering
