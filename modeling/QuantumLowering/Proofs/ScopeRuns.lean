/-
  Runs of a stack of declared qubits.

  * `Scopes.Request`: open a frame, close one, or make qubits usable.
  * `Scopes.serveAll`: the stack after a list of requests to a new one.
  * `Scopes.Orderly`: no qubits are declared in two frames, and what declared qubits are built
    from is declared in the same frame or further out.  Every request keeps this.
  * `Scopes.Introduces`: which declarations make qubits usable, and in which order.
  * `orderly_serveAll`: every stack that can be reached is orderly, and `use` introduces there
    exactly what is missing.

  `use` stops at declared qubits without a look at their parts.  This is right on orderly
  stacks only, and requests lead to no others.
-/
import QuantumLowering.Proofs.Visibility

namespace QuantumLowering

/-- A description is built from itself, from its parts, and from what they are built from. -/
inductive Qubits.Reaches : Qubits → Qubits → Prop
  | refl (q : Qubits) : Reaches q q
  | part {q r t : Qubits} : r ∈ q.parts → Reaches r t → Reaches q t

namespace Scopes

/-- What can be asked of a stack. -/
inductive Request
  | enter
  | leave
  | use (q : Qubits)

/-- The stack after a request. -/
def serve (s : Scopes) : Request → Scopes
  | .enter => s.enter
  | .leave => s.leave
  | .use q => (s.use q).2

/-- A new stack after some requests. -/
def serveAll (requests : List Request) : Scopes := requests.foldl serve initial

variable {s s' : Scopes} {q r : Qubits} {qs : List Qubits}

/-! ## Orderly stacks -/

/-- The frames do not overlap, and hold with every description what it is built from. -/
structure Orderly (s : Scopes) : Prop where
  nonempty : s.frames ≠ []
  once : ∀ frame ∈ s.frames, frame.Pairwise fun q r => ¬ q == r
  /-- No qubits are in two frames. -/
  apart : s.frames.Pairwise fun inner outer => ∀ q ∈ inner, ∀ r ∈ outer, ¬ q == r
  declarable : ∀ frame ∈ s.frames, ∀ q ∈ frame, q.isDeclarable
  /-- Parts are in the same frame or further out. -/
  closed : ∀ frame outer, frame :: outer <:+ s.frames → ∀ q ∈ frame, ∀ r ∈ q.parts,
    r.isDeclarable → ∃ f ∈ frame :: outer, f.contains r

namespace Orderly

theorem initial : Orderly initial where
  nonempty := by simp [frames]
  once := by simp [frames, Scopes.initial]
  apart := by simp [frames, Scopes.initial]
  declarable := by simp [frames, Scopes.initial]
  closed frame outer hsuffix q hq := by
    obtain ⟨rfl, -⟩ : frame = [] ∧ outer = [] := by
      simpa [frames, Scopes.initial, List.suffix_cons_iff] using hsuffix
    simp at hq

theorem enter (h : Orderly s) : Orderly s.enter where
  nonempty := by simp [frames]
  once := List.forall_mem_cons.2 ⟨.nil, h.once⟩
  apart := List.pairwise_cons.2 ⟨fun _ _ _ hq => absurd hq List.not_mem_nil, h.apart⟩
  declarable := List.forall_mem_cons.2 ⟨fun _ hq => absurd hq List.not_mem_nil, h.declarable⟩
  closed frame outer hsuffix q hq := by
    rcases List.suffix_cons_iff.1 hsuffix with heq | hsuffix
    · obtain ⟨rfl, -⟩ := List.cons.inj heq
      simp [Scopes.enter] at hq
    · exact h.closed frame outer hsuffix q hq

theorem leave (h : Orderly s) : Orderly s.leave := by
  obtain ⟨innermost, outer⟩ := s
  match outer with
  | [] => exact h
  | frame :: frames =>
    refine ⟨List.cons_ne_nil _ _, fun f hf => h.once f (List.mem_cons_of_mem _ hf),
      (List.pairwise_cons.1 h.apart).2, fun f hf => h.declarable f (List.mem_cons_of_mem _ hf), ?_⟩
    intro f outer hsuffix
    exact h.closed f outer (hsuffix.trans (List.suffix_cons _ _))

theorem not_mem_of_not_isDeclared (hn : ¬ s.isDeclared q) {frame : List Qubits}
    (hframe : frame ∈ s.frames) (hr : r ∈ frame) : ¬ q == r :=
  fun he => hn (isDeclared_iff.2 ⟨frame, hframe, r, hr, he⟩)

theorem declare (h : Orderly s) (hq : q.isDeclarable) (hn : ¬ s.isDeclared q)
    (hp : ∀ r ∈ q.parts, s.isUsable r) : Orderly (s.declare q) where
  nonempty := List.cons_ne_nil _ _
  once := by
    obtain ⟨hinner, houter⟩ := List.forall_mem_cons.1 h.once
    refine List.forall_mem_cons.2 ⟨List.pairwise_cons.2 ⟨fun r hr => ?_, hinner⟩, houter⟩
    exact not_mem_of_not_isDeclared hn List.mem_cons_self hr
  apart := by
    obtain ⟨hinner, houter⟩ := List.pairwise_cons.1 h.apart
    refine List.pairwise_cons.2 ⟨fun frame hframe => ?_, houter⟩
    refine List.forall_mem_cons.2 ⟨fun r hr => ?_, hinner frame hframe⟩
    exact not_mem_of_not_isDeclared hn (List.mem_cons_of_mem _ hframe) hr
  declarable := by
    obtain ⟨hinner, houter⟩ := List.forall_mem_cons.1 h.declarable
    exact List.forall_mem_cons.2 ⟨List.forall_mem_cons.2 ⟨hq, hinner⟩, houter⟩
  closed frame outer hsuffix t ht r hr hdecl := by
    rcases List.suffix_cons_iff.1 hsuffix with heq | hsuffix
    · obtain ⟨rfl, rfl⟩ := List.cons.inj heq
      have hold : s.isDeclared r := by
        rcases List.mem_cons.1 ht with rfl | ht
        · simpa [isUsable, hdecl] using hp r hr
        · exact List.any_eq_true.2 (h.closed _ _ (List.suffix_refl _) t ht r hr hdecl)
      have hnew : (s.declare q).isDeclared r := by simp [hold]
      exact List.any_eq_true.1 hnew
    · exact h.closed frame outer (hsuffix.trans (List.suffix_cons _ _)) t ht r hr hdecl

theorem declares (hs : Orderly s) (h : Declares s qs s') : Orderly s' := by
  induction h with
  | nil => exact hs
  | snoc _ hq hn hp ih => exact ih.declare hq hn hp

/-- One request keeps a stack orderly. -/
theorem serve (h : Orderly s) : ∀ request, Orderly (s.serve request)
  | .enter => h.enter
  | .leave => h.leave
  | .use q => h.declares (s.readies_use q).declares

theorem foldl_serve (h : Orderly s) (requests : List Request) :
    Orderly (requests.foldl Scopes.serve s) := by
  induction requests generalizing s with
  | nil => exact h
  | cons request requests ih => exact ih (h.serve request)

theorem isUsable_part (h : Orderly s) (hq : s.isUsable q) (hr : r ∈ q.parts) : s.isUsable r := by
  simp only [isUsable, Bool.or_eq_true, Bool.not_eq_true'] at hq ⊢
  rcases hq with hq | hq
  · cases q <;> simp_all [Qubits.isDeclarable, Qubits.parts]
  · -- the parts of `q` are those of the equal description `d` that was declared
    obtain ⟨frame, hframe, d, hd, he⟩ := isDeclared_iff.1 hq
    obtain ⟨inner, outer, hframes⟩ := List.append_of_mem hframe
    obtain ⟨r', hr', hrr'⟩ := Qubits.exists_part_of_beq he hr
    rw [Qubits.isDeclarable_congr hrr', isDeclared_congr hrr']
    refine (Bool.eq_false_or_eq_true r'.isDeclarable).symm.imp_right fun hdecl => ?_
    obtain ⟨f, hf, hmem⟩ := h.closed frame outer ⟨inner, hframes.symm⟩ d hd r' hr' hdecl
    refine List.any_eq_true.2 ⟨f, ?_, hmem⟩
    rw [hframes]
    exact List.mem_append_right _ hf

/-- Whatever usable qubits are built from is usable. -/
theorem isUsable_of_reaches (h : Orderly s) (hr : q.Reaches r) (hq : s.isUsable q) :
    s.isUsable r := by
  induction hr with
  | refl => exact hq
  | part hp _ ih => exact ih (h.isUsable_part hq hp)

end Orderly

/-! ## What `use` declares -/

theorem Declares.isDeclarable (h : Declares s qs s') (hq : q ∈ qs) : q.isDeclarable := by
  induction h with
  | nil => simp at hq
  | snoc _ hd _ _ ih =>
    rcases List.mem_append.1 hq with hq | hq
    · exact ih hq
    · rwa [List.mem_singleton.1 hq]

/-- No qubits are declared twice. -/
theorem Declares.pairwise (h : Declares s qs s') : qs.Pairwise fun q r => ¬ q == r := by
  induction h with
  | nil => exact .nil
  | snoc h _ hn _ ih =>
    refine List.pairwise_append.2 ⟨ih, List.pairwise_singleton _ _, fun r hr q hq => ?_⟩
    obtain rfl := List.mem_singleton.1 hq
    intro he
    rw [h.eq_declareAll, isDeclared_declareAll] at hn
    exact hn (.inl ⟨r, hr, BEq.symm he⟩)

/-- Parts that were not usable are declared in front. -/
theorem Declares.parts_before (h : Declares s qs s') : ∀ {before after : List Qubits} {d : Qubits},
    qs = before ++ d :: after → ∀ r ∈ d.parts, ¬ s.isUsable r → ∃ b ∈ before, r == b := by
  induction h with
  | nil => simp
  | snoc h _ _ hp ih =>
    intro before after d heq r hr hn
    rcases List.eq_nil_or_concat after with rfl | ⟨after, a, rfl⟩
    · obtain ⟨rfl, hlast⟩ := List.append_inj' heq rfl
      obtain rfl := (List.cons.inj hlast).1
      have hused := hp r hr
      rw [h.eq_declareAll, Scopes.isUsable, Bool.or_eq_true, isDeclared_declareAll] at hused
      rw [Scopes.isUsable, Bool.or_eq_true] at hn
      grind
    · have hsplit : before ++ d :: after.concat a = (before ++ d :: after) ++ [a] := by simp
      exact ih (List.append_inj' (heq.trans hsplit) rfl).1 r hr hn

theorem exists_of_mem_useAll {d : Qubits} : ∀ {qs : List Qubits} {s : Scopes},
    d ∈ (s.useAll qs).1 → ∃ q ∈ qs, ∃ t : Scopes, d ∈ (t.use q).1
  | [], _, h => by simp [useAll] at h
  | q :: qs, s, h => by
    simp only [useAll, List.mem_append] at h
    rcases h with h | h
    · exact ⟨q, List.mem_cons_self, s, h⟩
    · obtain ⟨r, hr, t, hd⟩ := exists_of_mem_useAll h
      exact ⟨r, List.mem_cons_of_mem _ hr, t, hd⟩

/-- Nothing is declared but what the qubits are built from. -/
theorem reaches_of_mem_use {d : Qubits} (h : d ∈ (s.use q).1) : q.Reaches d := by
  induction q using Qubits.parts_induction generalizing s with
  | step q ih =>
    by_cases hq : s.isUsable q
    · simp [use_of_isUsable hq] at h
    · rw [use_of_not_isUsable hq] at h
      rcases List.mem_append.1 h with h | h
      · obtain ⟨r, hr, t, hd⟩ := exists_of_mem_useAll h
        exact .part hr (ih r hr hd)
      · rw [List.mem_singleton.1 h]
        exact .refl q

/-- The declarations `needed` are those that were missing for `q`, and lead to `s'`. -/
structure Introduces (s : Scopes) (q : Qubits) (needed : List Qubits) (s' : Scopes) : Prop where
  stack : s' = s.declareAll needed
  only : ∀ d ∈ needed, q.Reaches d ∧ d.isDeclarable ∧ ¬ s.isDeclared d
  all : ∀ r, q.Reaches r → r.isDeclarable → ¬ s.isDeclared r → ∃ d ∈ needed, r == d
  once : needed.Pairwise fun d e => ¬ d == e
  /-- Parts are declared before what is built from them. -/
  inOrder : ∀ before d after, needed = before ++ d :: after → ∀ r ∈ d.parts,
    r.isDeclarable → ¬ s.isDeclared r → ∃ b ∈ before, r == b
  usable : ∀ r, q.Reaches r → s'.isUsable r
  /-- The second time nothing is missing. -/
  again : s'.use q = ([], s')

theorem Orderly.introduces (h : Orderly s) (q : Qubits) :
    Introduces s q (s.use q).1 (s.use q).2 := by
  obtain ⟨hdeclares, husable, -⟩ := s.readies_use q
  have hq : (s.use q).2.isUsable q := husable q (by simp)
  have hreach : ∀ r, q.Reaches r → (s.use q).2.isUsable r :=
    fun r hr => (h.declares hdeclares).isUsable_of_reaches hr hq
  refine ⟨hdeclares.eq_declareAll, fun d hd => ⟨reaches_of_mem_use hd, hdeclares.isDeclarable hd,
    hdeclares.not_isDeclared hd⟩, ?_, hdeclares.pairwise, ?_, hreach, use_of_isUsable hq⟩
  · intro r hr hdecl hn
    have hdeclared : (s.use q).2.isDeclared r := by simpa [isUsable, hdecl] using hreach r hr
    rw [hdeclares.eq_declareAll, isDeclared_declareAll] at hdeclared
    exact hdeclared.resolve_right hn
  · intro before d after heq r hr hdecl hn
    exact hdeclares.parts_before heq r hr (by simp [isUsable, hdecl, hn])

/-- **Over any run, frames do not overlap and keep the parts of what they hold, and to use qubits
    declares exactly what is missing for them.** -/
theorem orderly_serveAll (requests : List Request) :
    Orderly (serveAll requests) ∧
      ∀ q, Introduces (serveAll requests) q ((serveAll requests).use q).1
        ((serveAll requests).use q).2 :=
  have h : Orderly (serveAll requests) := Orderly.initial.foldl_serve requests
  ⟨h, h.introduces⟩

end Scopes

end QuantumLowering
