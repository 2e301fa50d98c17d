/-
  Streams of events read by a generator that knows which qubits are declared.

  * `Event.uses`: the qubits an event names that have to be known before.
  * `Event.move`: what an event does to the scopes; loops, branches and adjoint regions open
    one each.
  * `Event.run`: reads a stream, and fails at the first event that names unknown qubits.
  * `Event.missing`: the qubits that a stream names without having declared them in a scope
    that is still open.  A stream runs if and only if nothing is missing.
  * `Event.repeated`: the qubits that a stream declares although a scope that is still open
    has declared them.
  * `Event.Closed`: a stream that closes the scopes it opens.  From outside it is known by what
    is missing from it and by what it declares, once and again.
  * `Event.Brackets`: two events that put a stream into a scope of its own.
-/
import QuantumLowering.Proofs.Visibility
import QuantumLowering.Event

namespace QuantumLowering

namespace Event

/-- The qubits that an event names and that have to be known before. -/
def uses : Event → List Qubits
  | declareJoined _ parts => parts
  | declareStrided _ q .. | declareSingle _ q _ => [q]
  | encode q _ | gate _ q | call _ _ q | beginControl q _ | endControl q | measure q
  | bind _ q => [q]
  | _ => []

/-- The qubits that an event declares. -/
def declared : Event → List Qubits
  | declareFresh q _ | declareJoined q _ | declareStrided q .. | declareSingle q .. => [q]
  | _ => []

/-- The scopes after an event. -/
def move (s : Scopes) : Event → Scopes
  | declareFresh q _ | declareJoined q _ | declareStrided q .. | declareSingle q .. => s.declare q
  | beginFor .. | beginIf _ | beginDagger => s.enter
  | endFor | endIf | endDagger => s.leave
  | beginElse => s.leave.enter
  | _ => s

/-- Reads an event; it fails at qubits that are not known. -/
def step (s : Scopes) (e : Event) : Option Scopes :=
  if e.uses.all s.isUsable then some (e.move s) else none

/-- Reads a stream. -/
def run (s : Scopes) (es : List Event) : Option Scopes := es.foldlM step s

/-- The scopes after a stream, whether or not it names unknown qubits. -/
def after (s : Scopes) (es : List Event) : Scopes := es.foldl move s

/-- The qubits named in a stream that are not known there. -/
def missing (s : Scopes) : List Event → List Qubits
  | [] => []
  | e :: es => e.uses.filter (fun q => !s.isUsable q) ++ missing (e.move s) es

/-- The qubits declared in a stream that are known there already. -/
def repeated (s : Scopes) : List Event → List Qubits
  | [] => []
  | e :: es => e.declared.filter s.isDeclared ++ repeated (e.move s) es

variable {s : Scopes} {e : Event} {es es' : List Event} {q : Qubits}

@[simp] theorem after_nil : after s [] = s := rfl

@[simp] theorem after_cons : after s (e :: es) = after (e.move s) es := rfl

@[simp] theorem after_append : after s (es ++ es') = after (after s es) es' := List.foldl_append

@[simp] theorem missing_append :
    missing s (es ++ es') = missing s es ++ missing (after s es) es' := by
  induction es generalizing s with
  | nil => rfl
  | cons e es ih => simp [missing, ih]

@[simp] theorem repeated_append :
    repeated s (es ++ es') = repeated s es ++ repeated (after s es) es' := by
  induction es generalizing s with
  | nil => rfl
  | cons e es ih => simp [repeated, ih]

/-- A stream can be read if and only if it names known qubits only. -/
theorem run_isSome_iff : (run s es).isSome ↔ missing s es = [] := by
  induction es generalizing s with
  | nil => simp [run, missing]
  | cons e es ih =>
    rw [missing, List.append_eq_nil_iff, ← ih, List.filter_eq_nil_iff]
    by_cases h : e.uses.all s.isUsable
    · have hs : step s e = some (e.move s) := if_pos h
      simpa [run, hs] using fun _ q hq => List.all_eq_true.1 h q hq
    · have hs : step s e = none := if_neg h
      simpa [run, hs] using fun h' => absurd (List.all_eq_true.2 h') h

/-! ## Closed streams -/

/-- The stream closes the scopes it opens and no others. -/
structure Closed (es : List Event) : Prop where
  /-- It adds declarations to the innermost scope. -/
  declares : ∃ own, ∀ s, after s es = s.declareAll own
  /-- What is known before is not missing, everything else is missing as from the start. -/
  mem_missing : ∀ s q, q ∈ missing s es ↔ q ∈ missing Scopes.initial es ∧ ¬ s.isUsable q
  /-- It repeats what it would repeat from the start, and what it declares of that known
      before. -/
  mem_repeated : ∀ s q, q ∈ repeated s es ↔
    q ∈ repeated Scopes.initial es ∨ q ∈ es.flatMap declared ∧ s.isDeclared q

namespace Closed

theorem isDeclared_after (h : Closed es) (hq : s.isDeclared q) : (after s es).isDeclared q := by
  obtain ⟨own, hown⟩ := h.declares
  rw [hown, Scopes.isDeclared_declareAll]
  exact .inr hq

/-- A scope around a closed stream takes its declarations back. -/
theorem leave_after (h : Closed es) (s : Scopes) : (after s.enter es).leave = s := by
  obtain ⟨own, hown⟩ := h.declares
  simp [Scopes.leave, hown, Scopes.enter]

theorem isDeclarable_of_mem (h : Closed es) (hq : q ∈ missing Scopes.initial es) :
    q.isDeclarable := by
  have := ((h.mem_missing _ _).1 hq).2
  simp_all [Scopes.isUsable]

/-- Nothing is missing if all that is needed has been declared. -/
theorem missing_eq_nil_iff (h : Closed es) :
    missing s es = [] ↔ ∀ q ∈ missing Scopes.initial es, s.isDeclared q := by
  rw [List.eq_nil_iff_forall_not_mem]
  refine forall_congr' fun q => ?_
  rw [h.mem_missing s q, not_and, Decidable.not_not]
  refine imp_congr_right fun hq => ?_
  simp [Scopes.isUsable, h.isDeclarable_of_mem hq]

/-- Nothing is declared again if that holds from the start and nothing declared was known. -/
theorem repeated_eq_nil_iff (h : Closed es) :
    repeated s es = [] ↔
      repeated Scopes.initial es = [] ∧ ∀ q ∈ es.flatMap declared, ¬ s.isDeclared q := by
  simp only [List.eq_nil_iff_forall_not_mem, h.mem_repeated s, not_or, not_and, forall_and]

theorem nil : Closed [] := ⟨⟨[], fun _ => rfl⟩, by simp [missing], by simp [repeated]⟩

theorem append (h : Closed es) (h' : Closed es') : Closed (es ++ es') where
  declares := by
    obtain ⟨own, hown⟩ := h.declares
    obtain ⟨own', hown'⟩ := h'.declares
    exact ⟨own ++ own', fun s => by simp [hown, hown']⟩
  mem_missing s q := by
    obtain ⟨own, hown⟩ := h.declares
    rw [missing_append, missing_append, List.mem_append, List.mem_append, h.mem_missing s,
      h'.mem_missing (after s es), h'.mem_missing (after Scopes.initial es)]
    simp only [hown, Scopes.isUsable, Bool.or_eq_true, Scopes.isDeclared_declareAll,
      Scopes.isDeclared_initial]
    grind
  mem_repeated s q := by
    obtain ⟨own, hown⟩ := h.declares
    rw [repeated_append, repeated_append, List.mem_append, List.mem_append, h.mem_repeated s,
      h'.mem_repeated (after s es), h'.mem_repeated (after Scopes.initial es), List.flatMap_append,
      List.mem_append]
    simp only [hown, Scopes.isDeclared_declareAll, Scopes.isDeclared_initial]
    grind

/-- An event that opens and closes nothing. -/
theorem single (h : ∃ own, ∀ s, e.move s = s.declareAll own) : Closed [e] where
  declares := h
  mem_missing s q := by
    simp only [missing, List.append_nil, List.mem_filter, Scopes.isUsable, Scopes.isDeclared_initial]
    grind
  mem_repeated s q := by simp [repeated]

end Closed

/-! ## Scopes -/

/-- Two events that open and close a scope and name no qubits. -/
structure Brackets (o c : Event) : Prop where
  opens : ∀ s, o.move s = s.enter
  closes : ∀ s, c.move s = s.leave
  uses : o.uses = [] ∧ c.uses = []
  declared : o.declared = [] ∧ c.declared = []

theorem brackets_for {x : ClassicalVariable} {r : LoopRange} : Brackets (.beginFor x r) .endFor :=
  ⟨fun _ => rfl, fun _ => rfl, ⟨rfl, rfl⟩, rfl, rfl⟩

theorem brackets_if {c : Condition} : Brackets (.beginIf c) .endIf :=
  ⟨fun _ => rfl, fun _ => rfl, ⟨rfl, rfl⟩, rfl, rfl⟩

theorem brackets_dagger : Brackets .beginDagger .endDagger :=
  ⟨fun _ => rfl, fun _ => rfl, ⟨rfl, rfl⟩, rfl, rfl⟩

theorem Brackets.missing {o c : Event} (hb : Brackets o c) :
    Event.missing s ([o] ++ es ++ [c]) = Event.missing s.enter es := by
  simp [Event.missing, hb.opens, hb.uses]

theorem Brackets.repeated {o c : Event} (hb : Brackets o c) :
    Event.repeated s ([o] ++ es ++ [c]) = Event.repeated s.enter es := by
  simp [Event.repeated, hb.opens, hb.declared]

/-- A closed stream in a scope of its own declares nothing for what follows. -/
theorem Brackets.after {o c : Event} (hb : Brackets o c) (h : Closed es) :
    Event.after s ([o] ++ es ++ [c]) = s := by
  simp [hb.opens, hb.closes, h.leave_after]

theorem missing_branches {c : Condition} (h : Closed es) :
    missing s ([.beginIf c] ++ es ++ [.beginElse] ++ es' ++ [.endIf]) =
      missing s.enter es ++ missing s.enter es' := by
  simp [missing, uses, move, h.leave_after]

theorem repeated_branches {c : Condition} (h : Closed es) :
    repeated s ([.beginIf c] ++ es ++ [.beginElse] ++ es' ++ [.endIf]) =
      repeated s.enter es ++ repeated s.enter es' := by
  simp [repeated, declared, move, h.leave_after]

theorem after_branches {c : Condition} (h : Closed es) (h' : Closed es') :
    after s ([.beginIf c] ++ es ++ [.beginElse] ++ es' ++ [.endIf]) = s := by
  simp [move, h.leave_after, h'.leave_after]

namespace Closed

theorem enclose {o c : Event} (hb : Brackets o c) (h : Closed es) : Closed ([o] ++ es ++ [c]) where
  declares := ⟨[], fun _ => hb.after h⟩
  mem_missing s q := by
    rw [hb.missing, hb.missing, h.mem_missing s.enter, h.mem_missing Scopes.initial.enter,
      and_assoc, and_congr_right_iff]
    intro hq
    simp [Scopes.isUsable, h.isDeclarable_of_mem hq]
  mem_repeated s q := by
    rw [hb.repeated, hb.repeated, h.mem_repeated s.enter, h.mem_repeated Scopes.initial.enter]
    simp [hb.declared]

/-- Two closed streams, each in a scope of its own. -/
theorem branches {c : Condition} (h : Closed es) (h' : Closed es') :
    Closed ([.beginIf c] ++ es ++ [.beginElse] ++ es' ++ [.endIf]) where
  declares := ⟨[], fun _ => after_branches h h'⟩
  mem_missing s q := by
    have key : ∀ s, q ∈ missing s ([.beginIf c] ++ es ++ [.beginElse] ++ es' ++ [.endIf]) ↔
        (q ∈ missing Scopes.initial es ∨ q ∈ missing Scopes.initial es') ∧ ¬ s.isUsable q := by
      intro s
      rw [missing_branches h, List.mem_append, h.mem_missing s.enter, h'.mem_missing s.enter,
        Scopes.isUsable_enter]
      grind
    rw [key, key Scopes.initial, and_assoc, and_congr_right_iff]
    rintro (hq | hq)
    · simp [Scopes.isUsable, h.isDeclarable_of_mem hq]
    · simp [Scopes.isUsable, h'.isDeclarable_of_mem hq]
  mem_repeated s q := by
    rw [repeated_branches h, repeated_branches h, List.mem_append, List.mem_append,
      h.mem_repeated s.enter, h'.mem_repeated s.enter, h.mem_repeated Scopes.initial.enter,
      h'.mem_repeated Scopes.initial.enter]
    simp only [Scopes.isDeclared_enter, Scopes.isDeclared_initial, List.flatMap_append,
      List.mem_append, List.flatMap_singleton, declared, List.not_mem_nil]
    grind

end Closed

end Event

/-! ## Declarations -/

namespace Qubits

variable {q : Qubits} {s : Scopes}

/-- The events of a declaration declare the qubits, and name their parts before. -/
theorem closed_declarationEvents (q : Qubits) : Event.Closed q.declarationEvents := by
  have declare : ∀ {e : Event}, (∀ s, e.move s = s.declare q) → Event.Closed [e] :=
    fun h => .single ⟨[q], h⟩
  match q with
  | .register _ => exact .nil
  | .fresh _ _ none | .strided .. | .single .. | .joined _ => exact declare fun _ => rfl
  | .fresh _ _ (some _) => exact .append (declare fun _ => rfl) (.single ⟨[], fun _ => rfl⟩)

theorem after_declarationEvents (hq : q.isDeclarable) (s : Scopes) :
    Event.after s q.declarationEvents = s.declare q := by
  match q with
  | .register _ => simp [isDeclarable] at hq
  | .fresh _ _ none | .fresh _ _ (some _) | .strided .. | .single .. | .joined _ => rfl

theorem repeated_declarationEvents (hq : q.isDeclarable) (s : Scopes) :
    Event.repeated s q.declarationEvents = [q].filter s.isDeclared := by
  match q with
  | .register _ => simp [isDeclarable] at hq
  | .fresh _ _ none | .fresh _ _ (some _) | .strided .. | .single .. | .joined _ =>
    simp [declarationEvents, Event.repeated, Event.declared]

theorem missing_declarationEvents (hp : ∀ r ∈ q.parts, s.isUsable r) :
    Event.missing s q.declarationEvents = [] := by
  match q with
  | .register _ | .fresh _ _ none => rfl
  | .fresh _ _ (some _) =>
    simp [declarationEvents, Event.missing, Event.uses, Event.move, Scopes.isUsable]
  | .strided .. | .single .. | .joined _ =>
    simpa [declarationEvents, Event.missing, Event.uses, parts] using hp

end Qubits

end QuantumLowering
