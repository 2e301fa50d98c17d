/-
  Balanced marks.

  * `Balanced n marks`: as many marks close as open, and no prefix closes more than `n` marks
    beyond those that it opens.
  * `Instruction.regionMarks`, `Instruction.controlMarks q`: what a list opens and closes itself,
    of adjoint regions and of the control `q`.
  * `Instruction.HasRegion code inside`: the list stands between the two markers of an adjoint
    region of the code.
  * `Instruction.ClosesRegions`, `Instruction.ClosesEvents`: a list closes its regions, with every
    control inside each of them; its stream of events closes what it opens.
  * `Mux.balanced_controls`: a mux closes each control as often as it opens it, although not in the
    reverse order.
  * `Listing.depth_of_balanced`: a balanced stream brings a listing back to its depth, and closes
    nothing there.
-/
import QuantumLowering.Listing
import QuantumLowering.Proofs.Multiplexing
import QuantumLowering.Proofs.Replay

namespace QuantumLowering

/-! ## Marks -/

/-- What an instruction or an event does to a number of open things. -/
inductive Mark
  | opens
  | closes
  deriving DecidableEq

/-- As many marks close as open, and no prefix closes more than `n` beyond those it opens. -/
structure Balanced (n : Nat) (marks : List Mark) : Prop where
  count_closes : marks.count .closes = marks.count .opens
  count_prefix : ∀ front, front <+: marks → front.count .closes ≤ n + front.count .opens

namespace Balanced

variable {n k : Nat} {a b mid : List Mark}

theorem nil : Balanced n [] := by
  refine ⟨rfl, fun front hfront => ?_⟩
  rw [List.prefix_nil.1 hfront]
  exact Nat.zero_le _

theorem mono (h : Balanced n a) (hk : n ≤ k) : Balanced k a :=
  ⟨h.count_closes, fun front hfront => Nat.le_trans (h.count_prefix front hfront) (by omega)⟩

theorem append (ha : Balanced n a) (hb : Balanced n b) : Balanced n (a ++ b) := by
  refine ⟨by simp [ha.count_closes, hb.count_closes], fun front hfront => ?_⟩
  rcases List.prefix_or_prefix_of_prefix hfront (List.prefix_append a b) with h | ⟨front', rfl⟩
  · exact ha.count_prefix front h
  · have hb' := hb.count_prefix front' ((List.prefix_append_right_inj a).1 hfront)
    have ha' := ha.count_closes
    simp only [List.count_append]
    omega

/-- One of the open things is closed and opened again. -/
theorem turn (hn : 0 < n) : Balanced n [.closes, .opens] := by
  refine ⟨rfl, fun front hfront => ?_⟩
  have hle : front.count .closes ≤ 1 := hfront.sublist.count_le _
  omega

/-- Several things are opened before and closed behind the rest. -/
theorem wrap (h : Balanced (n + k) mid) :
    Balanced n (List.replicate k .opens ++ mid ++ List.replicate k .closes) := by
  have heven := h.count_closes
  refine ⟨by simp [List.count_replicate]; omega, fun front hfront => ?_⟩
  -- the prefix ends among the opening marks, in the middle, or among the closing marks
  rw [List.append_assoc] at hfront
  rcases List.prefix_or_prefix_of_prefix hfront (List.prefix_append _ _) with hpre | ⟨rest, rfl⟩
  · have hle := hpre.sublist.count_le Mark.closes
    simp only [List.count_replicate, beq_iff_eq, reduceCtorEq, if_false] at hle
    omega
  rw [List.prefix_append_right_inj] at hfront
  rcases List.prefix_or_prefix_of_prefix hfront (List.prefix_append _ _) with hpre | ⟨rest', rfl⟩
  · have hle := h.count_prefix rest hpre
    simp [List.count_replicate]
    omega
  · rw [List.prefix_append_right_inj] at hfront
    have hle := hfront.sublist.count_le Mark.closes
    simp [List.count_replicate] at hle ⊢
    omega

/-- One thing is opened before and closed behind the rest. -/
theorem enclose (h : Balanced 0 mid) : Balanced 0 ([.opens] ++ mid ++ [.closes]) :=
  wrap (k := 1) (h.mono (Nat.zero_le 1))

end Balanced

namespace Instruction

/-- What an instruction does to the adjoint regions of its list. -/
def regionMark? : Instruction → Option Mark
  | act .beginDagger _ => some .opens
  | act .endDagger _ => some .closes
  | _ => none

/-- What an instruction does to a control. -/
def controlMark? (q : Qubits) : Instruction → Option Mark
  | act (.beginControl c _) _ => if c == q then some .opens else none
  | act (.endControl c) _ => if c == q then some .closes else none
  | _ => none

/-- The marks that a list sets for its adjoint regions. -/
def regionMarks (code : List Instruction) : List Mark := code.filterMap regionMark?

/-- The marks that a list sets for a control. -/
def controlMarks (q : Qubits) (code : List Instruction) : List Mark :=
  code.filterMap (controlMark? q)

variable {a b code inside : List Instruction} {q : Qubits} {l m : Option Location}

@[simp] theorem regionMarks_append : regionMarks (a ++ b) = regionMarks a ++ regionMarks b :=
  List.filterMap_append

@[simp] theorem controlMarks_append :
    controlMarks q (a ++ b) = controlMarks q a ++ controlMarks q b := List.filterMap_append

theorem regionMarks_of_isControl (h : ∀ i ∈ code, i.isControl) : regionMarks code = [] := by
  refine List.filterMap_eq_nil_iff.2 fun i hi => ?_
  have hcontrol := h i hi
  rcases i with ⟨_ | _ | _ | _ | _ | _ | _ | _ | _ | _, _⟩ | _ | _ | _ | _ <;>
    first | rfl | simp [isControl] at hcontrol

/-! ## Adjoint regions of a list -/

/-- The list stands between the two markers of an adjoint region of the code. -/
def HasRegion (code inside : List Instruction) : Prop :=
  Balanced 0 (regionMarks inside) ∧ ∃ before after l m,
    code = before ++ .act .beginDagger l :: (inside ++ .act .endDagger m :: after)

/-- Behind the marker of a region that is closed, more regions are closed than opened. -/
theorem count_behind_begin
    (h : Balanced 0 (regionMarks (a ++ .act .beginDagger l :: b))) :
    (regionMarks b).count .opens < (regionMarks b).count .closes := by
  have hall := h.count_closes
  have hfront := h.count_prefix (regionMarks a) (by simp)
  have hmark : regionMarks (.act .beginDagger l :: b) = .opens :: regionMarks b := rfl
  simp only [regionMarks_append, hmark, List.count_append, List.count_cons_self] at hall
  rw [List.count_cons_of_ne (by decide)] at hall
  omega

/-- A list closes the regions that it opens, before the marker that closes it. -/
theorem not_balanced_before_end (ha : Balanced 0 (regionMarks a))
    (h : Balanced 0 (regionMarks (a ++ .act .endDagger m :: b))) : False := by
  have heven := ha.count_closes
  have hfront := h.count_prefix (regionMarks a ++ [.closes])
    ⟨regionMarks b, by simp [regionMarks, regionMark?]⟩
  simp only [List.count_append, List.count_singleton_self] at hfront
  rw [List.count_singleton, if_neg (by decide)] at hfront
  omega

/-- A region of two lists that close what they open is a region of one of them. -/
theorem HasRegion.of_append (ha : Balanced 0 (regionMarks a))
    (h : HasRegion (a ++ b) inside) : HasRegion a inside ∨ HasRegion b inside := by
  obtain ⟨hinside, before, after, l, m, heq⟩ := h
  -- the first list cannot end between the two markers
  have hends : ∀ c c', a = before ++ .act .beginDagger l :: c → inside = c ++ c' → False := by
    rintro c c' rfl rfl
    have hbehind := count_behind_begin ha
    have hfront := hinside.count_prefix (regionMarks c) (by simp)
    omega
  rcases List.append_eq_append_iff.1 heq with ⟨c, rfl, rfl⟩ | ⟨c, hac, heq⟩
  · exact .inr ⟨hinside, c, after, l, m, rfl⟩
  rcases c with _ | ⟨i, c⟩
  · exact .inr ⟨hinside, [], after, l, m, heq.symm⟩
  obtain ⟨rfl, hrest⟩ := List.cons.inj heq
  rcases List.append_eq_append_iff.1 hrest with ⟨c', rfl, hend⟩ | ⟨c', rfl, -⟩
  · rcases c' with _ | ⟨j, c'⟩
    · exact (hends _ [] hac (by simp)).elim
    · obtain ⟨rfl, -⟩ := List.cons.inj hend
      exact .inl ⟨hinside, before, c', l, m, hac⟩
  · exact (hends c c' hac rfl).elim

/-- A region of a list between two markers is that list or one of its regions. -/
theorem HasRegion.of_region (hcode : Balanced 0 (regionMarks code))
    (h : HasRegion ([.act .beginDagger l] ++ code ++ [.act .endDagger m]) inside) :
    inside = code ∨ HasRegion code inside := by
  obtain ⟨hinside, before, after, l', m', heq⟩ := h
  have hcut := congrArg (fun c => c.tail.dropLast) heq
  rcases before with _ | ⟨i, before⟩ <;>
    rcases List.eq_nil_or_concat after with rfl | ⟨after, j, rfl⟩
  · exact .inl (by simpa using hcut.symm)
  · obtain rfl : code = inside ++ .act .endDagger m' :: after := by
      simpa [List.dropLast_cons_of_ne_nil] using hcut
    exact (not_balanced_before_end hinside hcode).elim
  · obtain rfl : code = before ++ .act .beginDagger l' :: inside := by
      simpa [List.dropLast_cons_of_ne_nil] using hcut
    have hbehind := count_behind_begin hcode
    have heven := hinside.count_closes
    omega
  · exact .inr ⟨hinside, before, after, l', m', by simpa [List.dropLast_cons_of_ne_nil] using hcut⟩

/-- The list closes the regions it opens, and inside each of them every control. -/
structure ClosesRegions (code : List Instruction) : Prop where
  balanced : Balanced 0 (regionMarks code)
  inside : ∀ inside, HasRegion code inside → ∀ q, Balanced 0 (controlMarks q inside)

namespace ClosesRegions

theorem of_regionMarks (h : regionMarks code = []) : ClosesRegions code := by
  refine ⟨h ▸ .nil, ?_⟩
  rintro inside ⟨-, before, after, l, m, rfl⟩
  simp [regionMarks, regionMark?] at h

theorem append (ha : ClosesRegions a) (hb : ClosesRegions b) : ClosesRegions (a ++ b) where
  balanced := by simpa using ha.balanced.append hb.balanced
  inside inside h := (h.of_append ha.balanced).elim (ha.inside inside) (hb.inside inside)

theorem region (h : ClosesRegions code) (hq : ∀ q, Balanced 0 (controlMarks q code)) :
    ClosesRegions ([.act .beginDagger l] ++ code ++ [.act .endDagger m]) where
  balanced := by
    rw [regionMarks_append, regionMarks_append]
    exact h.balanced.enclose
  inside inside hinside := by
    rcases hinside.of_region h.balanced with rfl | hinside
    · exact hq
    · exact h.inside inside hinside

end ClosesRegions

end Instruction

open Instruction

/-! ## Controls of a mux -/

namespace Mux

variable {controls : List Qubits} {blocks : List (List Instruction)} {l : Option Location}
  {q : Qubits} {n : Nat}

/-- What the empty list, the ways and the blocks have, and what lists keep one after another,
    all blocks behind their ways have. -/
theorem arms_of {P : List Instruction → Prop} (hnil : P [])
    (happend : ∀ {a b}, P a → P b → P (a ++ b)) (htoggles : ∀ state, P (toggles controls l state))
    (hblocks : ∀ b ∈ blocks, P b) : ∀ state, P (arms controls l state blocks) := by
  induction blocks with
  | nil => exact fun _ => hnil
  | cons b bs ih =>
    intro state
    have hb := hblocks b List.mem_cons_self
    have hbs := ih (fun b hb => hblocks b (List.mem_cons_of_mem _ hb)) (state + 1)
    exact happend (happend (htoggles state) hb) hbs

/-- What control markers and the blocks have, and what lists keep one after another, the code of
    a mux has. -/
theorem code_of {P : List Instruction → Prop} (happend : ∀ {a b}, P a → P b → P (a ++ b))
    (hcontrols : ∀ {code : List Instruction}, (∀ i ∈ code, i.isControl) → P code)
    (hblocks : ∀ b ∈ blocks, P b) :
    P (controls.map (openControl l · false) ++ arms controls l 0 blocks ++
      controls.map (closeControl l)) := by
  have hopen : P (controls.map (openControl l · false)) :=
    hcontrols fun _ hi => isControl_of_mem_open hi
  have hclose : P (controls.map (closeControl l)) :=
    hcontrols fun _ hi => isControl_of_mem_close hi
  have hnil : P [] := hcontrols (by simp)
  have hways : ∀ state, P (toggles controls l state) :=
    fun _ => hcontrols fun _ hi => isControl_of_mem_toggles hi
  exact happend (happend hopen (arms_of hnil happend hways hblocks 0)) hclose

/-- Instructions that each set a mark for their own control set it as often as the control occurs. -/
theorem controlMarks_map {f : Qubits → Instruction} {mark : Mark}
    (hf : ∀ c, controlMark? q (f c) = if c == q then some mark else none) :
    controlMarks q (controls.map f) = List.replicate (controls.countP (· == q)) mark := by
  induction controls with
  | nil => rfl
  | cons c cs ih =>
    rw [List.map_cons, ← List.singleton_append, controlMarks_append, ih, List.countP_cons]
    by_cases h : c == q <;> simp [controlMarks, hf, h, List.replicate_succ]

theorem controlMarks_open : controlMarks q (controls.map (openControl l · false)) =
    List.replicate (controls.countP (· == q)) .opens :=
  controlMarks_map fun _ => rfl

theorem controlMarks_close : controlMarks q (controls.map (closeControl l)) =
    List.replicate (controls.countP (· == q)) .closes :=
  controlMarks_map fun _ => rfl

/-- A way only closes controls that are open, and opens them again. -/
theorem balanced_togglesFrom (state : Nat) : ∀ (p : Nat) {controls : List Qubits},
    (∀ c ∈ controls, c == q → 0 < n) → Balanced n (controlMarks q (togglesFrom l state p controls))
  | _, [], _ => .nil
  | p, c :: cs, h => by
    have hrest := balanced_togglesFrom state (p + 1) fun c hc => h c (List.mem_cons_of_mem _ hc)
    rw [togglesFrom, controlMarks_append]
    refine Balanced.append ?_ hrest
    split
    · by_cases hc : c == q
      · simpa [controlMarks, controlMark?, closeControl, openControl, hc] using
          Balanced.turn (h c List.mem_cons_self hc)
      · simpa [controlMarks, controlMark?, closeControl, openControl, hc] using Balanced.nil
    · exact .nil

theorem balanced_toggles (state : Nat) (h : ∀ c ∈ controls, c == q → 0 < n) :
    Balanced n (controlMarks q (toggles controls l state)) := by
  unfold toggles
  split
  · exact .nil
  · exact balanced_togglesFrom state 0 h

/-- A mux closes every control as often as it opens it. -/
theorem balanced_controls (h : ∀ b ∈ blocks, Balanced 0 (controlMarks q b)) :
    Balanced 0 (controlMarks q (controls.map (openControl l · false) ++
      arms controls l 0 blocks ++ controls.map (closeControl l))) := by
  have hcontrols : ∀ c ∈ controls, c == q → 0 < 0 + controls.countP (· == q) := fun c hc hq => by
    rw [Nat.zero_add]
    exact List.countP_pos_iff.2 ⟨c, hc, hq⟩
  rw [controlMarks_append, controlMarks_append, controlMarks_open, controlMarks_close]
  refine Balanced.wrap (arms_of (P := fun code => Balanced _ (controlMarks q code)) .nil
    (fun ha hb => ?_) (fun state => balanced_toggles state hcontrols)
    (fun b hb => (h b hb).mono (Nat.zero_le _)) 0)
  rw [controlMarks_append]
  exact ha.append hb

end Mux

/-! ## Events and the depth of a listing -/

/-- Whether an action neither bounds an adjoint region nor opens or closes a control. -/
def Action.isInert : Action → Bool
  | beginDagger | endDagger | beginControl .. | endControl _ => false
  | _ => true

/-- Whether an instruction has no body and opens and closes nothing. -/
def Instruction.isInert : Instruction → Bool
  | act a _ => a.isInert
  | _ => false

/-- What an event does to the depth of a listing. -/
def Event.marks : Event → List Mark
  | .beginOperation .. | .beginProgram .. | .beginDagger | .beginFor .. | .beginIf _ => [.opens]
  | .endOperation | .endProgram | .endDagger | .endFor | .endIf => [.closes]
  | .beginElse => [.closes, .opens]
  | _ => []

/-- The marks of a stream of events. -/
def Event.streamMarks (events : List Event) : List Mark := events.flatMap Event.marks

namespace Event

variable {es fs : List Event}

@[simp] theorem streamMarks_append : streamMarks (es ++ fs) = streamMarks es ++ streamMarks fs :=
  List.flatMap_append

theorem streamMarks_of_isInert {a : Action} {l : Option Location} (ha : a.isInert) :
    streamMarks (Instruction.act a l).events = [] := by
  match a with
  | .declare q =>
    simp only [events, Action.events]
    unfold Qubits.declarationEvents
    split <;> rfl
  | .apply (.gate g) _ =>
    simp only [events, Action.events]
    split <;> rfl
  | .encode .. | .apply (.call ..) _ | .measure _ | .assign .. | .bind .. => rfl

theorem streamMarks_of_isControl {i : Instruction} (hi : i.isControl) :
    streamMarks i.events = [] := by
  rcases i with ⟨_ | _ | _ | _ | _ | _ | _ | _ | _ | _, _⟩ | _ | _ | _ | _ <;>
    first | rfl | simp [isControl] at hi

/-- Instructions without marks give both runs of a list none. -/
theorem streamMarks_eq_nil {code : List Instruction} (h : ∀ i ∈ code, streamMarks i.events = []) :
    streamMarks (listEvents code) = [] ∧ streamMarks (replayEvents code) = [] := by
  induction code with
  | nil => exact ⟨rfl, rfl⟩
  | cons i is ih =>
    have hi := h i List.mem_cons_self
    obtain ⟨hlist, hreplay⟩ := ih fun j hj => h j (List.mem_cons_of_mem _ hj)
    refine ⟨by simp [listEvents, hi, hlist], ?_⟩
    rw [replayEvents]
    split <;> simp [hi, hreplay]

/-- Events between an opening and a closing one. -/
theorem balanced_enclose {o c : Event} (ho : o.marks = [.opens]) (hc : c.marks = [.closes])
    (h : Balanced 0 (streamMarks es)) : Balanced 0 (streamMarks ([o] ++ es ++ [c])) := by
  simpa [streamMarks, ho, hc] using h.enclose

/-- Two branches, the second of which is opened where the first one is closed. -/
theorem balanced_branches {c : Condition} (he : Balanced 0 (streamMarks es))
    (hf : Balanced 0 (streamMarks fs)) :
    Balanced 0 (streamMarks ([.beginIf c] ++ es ++ [.beginElse] ++ fs ++ [.endIf])) := by
  have hmid : Balanced 1 (streamMarks es ++ [.closes, .opens] ++ streamMarks fs) :=
    ((he.mono (Nat.zero_le 1)).append (.turn Nat.one_pos)).append (hf.mono (Nat.zero_le 1))
  simpa [streamMarks, marks] using Balanced.wrap (n := 0) (k := 1) hmid

end Event

/-- Both runs of a list, the one with its declarations and the one without, close what they
    open. -/
structure Instruction.ClosesEvents (code : List Instruction) : Prop where
  list : Balanced 0 (Event.streamMarks (listEvents code))
  replay : Balanced 0 (Event.streamMarks (replayEvents code))

namespace Instruction.ClosesEvents

variable {a b code : List Instruction}

theorem append (ha : ClosesEvents a) (hb : ClosesEvents b) : ClosesEvents (a ++ b) where
  list := by simpa using ha.list.append hb.list
  replay := by simpa using ha.replay.append hb.replay

/-- Instructions without marks. -/
theorem of_nil (h : ∀ i ∈ code, Event.streamMarks i.events = []) : ClosesEvents code := by
  obtain ⟨hlist, hreplay⟩ := Event.streamMarks_eq_nil h
  exact ⟨hlist ▸ .nil, hreplay ▸ .nil⟩

/-- A list of one instruction that is no declaration. -/
theorem single {i : Instruction} (hi : i.isDeclaration = false)
    (h : Balanced 0 (Event.streamMarks i.events)) : ClosesEvents [i] where
  list := by simpa [listEvents] using h
  replay := by simpa [replayEvents, hi] using h

end Instruction.ClosesEvents

namespace Listing

/-- An event that closes something closes first. -/
theorem prefix_marks {e : Event} (h : .closes ∈ e.marks) : [.closes] <+: e.marks := by
  cases e <;> simp_all [Event.marks]

/-- One event moves the depth by what it opens and closes. -/
theorem depth_step {l : Listing} {e : Event} (h : .closes ∈ e.marks → 0 < l.depth) :
    (l.step e).depth + e.marks.count .closes = l.depth + e.marks.count .opens := by
  cases e with
  | beginFile =>
    simp only [step, Event.marks]
    split <;> rfl
  | endOperation | endProgram | endDagger | endFor | endIf | beginElse =>
    have hdepth := h (by simp [Event.marks])
    simp [step, line, closing, reopening, Event.marks]
    omega
  | _ => simp [step, line, opening, Event.marks]

/-- A stream that never closes more than is open moves the depth by what it opens and
    closes. -/
theorem depth_run {es : List Event} : ∀ {l : Listing}, (∀ front, front <+: Event.streamMarks es →
      front.count .closes ≤ l.depth + front.count .opens) →
    (l.run es).depth + (Event.streamMarks es).count .closes =
      l.depth + (Event.streamMarks es).count .opens := by
  induction es with
  | nil => exact fun _ => rfl
  | cons e es ih =>
    intro l h
    have hmarks : Event.streamMarks (e :: es) = e.marks ++ Event.streamMarks es := rfl
    rw [hmarks] at h
    have hstep := depth_step (l := l) (e := e) fun he => by
      have hfront := h [.closes] ((prefix_marks he).trans (List.prefix_append _ _))
      simp at hfront
      omega
    have hrest := ih (l := l.step e) fun front hfront => by
      have hall := h (e.marks ++ front) ((List.prefix_append_right_inj _).2 hfront)
      simp only [List.count_append] at hall
      omega
    have hrun : l.run (e :: es) = (l.step e).run es := rfl
    rw [hmarks, hrun, List.count_append, List.count_append]
    omega

/-- A balanced stream comes back to the depth it starts from, and is deeper wherever it closes
    something. -/
theorem depth_of_balanced {es : List Event} (h : Balanced 0 (Event.streamMarks es)) (l : Listing) :
    (l.run es).depth = l.depth ∧
      ∀ pre e post, es = pre ++ e :: post → .closes ∈ e.marks → l.depth < (l.run pre).depth := by
  constructor
  · have hrun := @depth_run es l fun front hfront =>
      Nat.le_trans (h.count_prefix front hfront) (by omega)
    have heven := h.count_closes
    omega
  · rintro pre e post rfl he
    rw [Event.streamMarks_append] at h
    have hrun := @depth_run pre l fun front hfront =>
      Nat.le_trans (h.count_prefix front (hfront.trans (List.prefix_append _ _))) (by omega)
    obtain ⟨rest, hrest⟩ := prefix_marks he
    have hclose := h.count_prefix (Event.streamMarks pre ++ [.closes])
      ⟨rest ++ Event.streamMarks post, by simp [Event.streamMarks, ← hrest]⟩
    simp at hclose
    omega

end Listing

end QuantumLowering
