/-
  A mux runs every block under exactly its own assignment.

  * `Mux.way`: the control markers in front of a block.
  * `Mux.replay`: reads control markers; it fails where an open control is opened or a control
    that is not open is closed.
  * `Mux.assignment`: what the controls have to be for a block, by the bits of its number.
  * `exists_replay_togglesFrom`: one way moves the open controls from one assignment to the next.
  * `linearize_replays`: every block is reached with its own assignment, and the markers are as
    many as there are nodes below the root of a binary tree with one leaf for each block.

  A way changes the bits in which two neighbouring numbers differ.  Half of the numbers are
  odd and change one bit; the others change one bit more than their halves.
-/
import Mathlib.Algebra.BigOperators.Group.Finset.Basic
import Mathlib.Algebra.Order.BigOperators.Group.Finset
import QuantumLowering.Mux
import QuantumLowering.Proofs.Positions

namespace QuantumLowering

namespace Mux

variable {l : Option Location} {controls : List Qubits} {o : List (Qubits × Bool)}

/-! ## Ways -/

/-- The control markers in front of a block. -/
def way (controls : List Qubits) (l : Option Location) (state : Nat) : List Instruction :=
  if state = 0 then controls.map (openControl l · false) else toggles controls l state

theorem way_of_pos {state : Nat} (h : 0 < state) : way controls l state = toggles controls l state :=
  if_neg (Nat.pos_iff_ne_zero.1 h)

theorem isControl_of_mem_togglesFrom {state : Nat} {i : Instruction} : ∀ {p : Nat}
    {controls : List Qubits}, i ∈ togglesFrom l state p controls → i.isControl
  | _, [], h => by simp [togglesFrom] at h
  | p, q :: qs, h => by
    rw [togglesFrom, List.mem_append] at h
    rcases h with h | h
    · split at h
      · rcases List.mem_pair.1 h with rfl | rfl <;> rfl
      · simp at h
    · exact isControl_of_mem_togglesFrom h

theorem isControl_of_mem_toggles {state : Nat} {i : Instruction}
    (h : i ∈ toggles controls l state) : i.isControl := by
  unfold toggles at h
  split at h
  · simp at h
  · exact isControl_of_mem_togglesFrom h

theorem isControl_of_mem_open {i : Instruction}
    (h : i ∈ controls.map (openControl l · false)) : i.isControl := by
  obtain ⟨q, -, rfl⟩ := List.mem_map.1 h
  rfl

theorem isControl_of_mem_close {i : Instruction} (h : i ∈ controls.map (closeControl l)) :
    i.isControl := by
  obtain ⟨q, -, rfl⟩ := List.mem_map.1 h
  rfl

theorem isControl_of_mem_way {state : Nat} {i : Instruction} (h : i ∈ way controls l state) :
    i.isControl := by
  unfold way at h
  split at h
  · exact isControl_of_mem_open h
  · exact isControl_of_mem_toggles h

theorem arms_eq_zipWith : ∀ (state : Nat) (blocks : List (List Instruction)),
    arms controls l state blocks =
      (List.zipWith (· ++ ·) ((List.range' state blocks.length).map (toggles controls l))
        blocks).flatten
  | _, [] => rfl
  | state, b :: bs => by
    rw [arms, arms_eq_zipWith (state + 1) bs]
    simp [List.range'_succ]

/-- The blocks behind their ways, and the closing of all controls. -/
theorem linearize_eq {blocks : List (List Instruction)} (hk : controls.length < 64)
    (hb : blocks.length = 2 ^ controls.length) :
    linearize controls blocks l =
      .ok ((List.zipWith (· ++ ·) ((List.range blocks.length).map (way controls l))
        blocks).flatten ++ controls.map (closeControl l)) := by
  have hshape : checkShape controls.length blocks.length = .ok () := by
    simp [checkShape, blockCount?, hk, hb]
  rw [linearize, hshape, arms_eq_zipWith]
  cases blocks with
  | nil => exact absurd hb.symm (Nat.two_pow_pos _).ne'
  | cons b bs =>
    have htail : (List.range' 1 bs.length).map (way controls l) =
        (List.range' 1 bs.length).map (toggles controls l) :=
      List.map_congr_left fun state hs => way_of_pos (List.left_le_of_mem_range' hs)
    simp [List.range_eq_range', List.range'_succ, htail, way, toggles, Except.map]

/-! ## Open controls -/

/-- The open controls after a control marker, if it opens a control that is not open or closes
    one that is; other instructions change nothing. -/
def replayStep (o : List (Qubits × Bool)) : Instruction → Option (List (Qubits × Bool))
  | .act (.beginControl q condition) _ =>
    if o.any (·.1 == q) then none else some ((q, condition) :: o)
  | .act (.endControl q) _ => if o.any (·.1 == q) then some (o.eraseP (·.1 == q)) else none
  | _ => some o

/-- The open controls after a list. -/
def replay (o : List (Qubits × Bool)) (code : List Instruction) : Option (List (Qubits × Bool)) :=
  code.foldlM replayStep o

/-- What the controls, numbered from `p`, have to be for a block. -/
def assignmentFrom (state p : Nat) (controls : List Qubits) : List (Qubits × Bool) :=
  (controls.zipIdx p).map fun c => (c.1, state.testBit c.2)

/-- Every control with the bit of the block's number at its place. -/
def assignment (controls : List Qubits) (state : Nat) : List (Qubits × Bool) :=
  assignmentFrom state 0 controls

/-- No control is among the open ones. -/
def Apart (o : List (Qubits × Bool)) (q : Qubits) : Prop := ∀ c ∈ o, ¬ c.1 == q

@[simp] theorem replay_append {a b : List Instruction} :
    replay o (a ++ b) = (replay o a).bind fun o' => replay o' b := List.foldlM_append

@[simp] theorem replay_nil : replay o [] = some o := rfl

theorem replay_cons {i : Instruction} {is : List Instruction} :
    replay o (i :: is) = (replayStep o i).bind fun o' => replay o' is := List.foldlM_cons

theorem replayStep_open {q : Qubits} {condition : Bool} (h : Apart o q) :
    replayStep o (openControl l q condition) = some ((q, condition) :: o) := by
  have hany : ¬ o.any (·.1 == q) := by
    rw [List.any_eq_true]
    rintro ⟨c, hc, he⟩
    exact h c hc he
  exact if_neg hany

/-- Closing one of the open controls leaves the others open. -/
theorem replayStep_close {q : Qubits} {condition : Bool} {rest : List (Qubits × Bool)}
    (ho : o.Perm ((q, condition) :: rest)) (h : Apart rest q) :
    ∃ o', replayStep o (closeControl l q) = some o' ∧ o'.Perm rest := by
  have hany : o.any (·.1 == q) :=
    List.any_eq_true.2 ⟨_, ho.mem_iff.2 List.mem_cons_self, BEq.rfl⟩
  have honce : ((q, condition) :: rest).Pairwise fun a b => ¬ (a.1 == q ∧ b.1 == q) := by
    refine List.pairwise_cons.2 ⟨fun c hc he => h c hc he.2, ?_⟩
    exact List.pairwise_of_forall_mem_list fun a ha _ _ he => h a ha he.1
  have hsymm : ∀ {a b : Qubits × Bool}, ¬ (a.1 == q ∧ b.1 == q) → ¬ (b.1 == q ∧ a.1 == q) :=
    fun hn he => hn he.symm
  refine ⟨_, if_pos hany, ?_⟩
  have hperm := ho.eraseP (·.1 == q)
    (((ho.pairwise_iff hsymm).2 honce).imp fun hn ha hb => hn ⟨ha, hb⟩)
  rwa [List.eraseP_cons_of_pos (by simp)] at hperm

/-! ## One way -/

theorem assignmentFrom_cons {state p : Nat} {q : Qubits} :
    assignmentFrom state p (q :: controls) =
      (q, state.testBit p) :: assignmentFrom state (p + 1) controls := by
  simp [assignmentFrom]

theorem apart_assignmentFrom {q : Qubits} (state p : Nat) (h : ∀ r ∈ controls, ¬ q == r) :
    Apart (assignmentFrom state p controls) q := by
  intro c hc he
  obtain ⟨⟨r, p'⟩, hr, rfl⟩ := List.mem_map.1 hc
  exact h r (List.fst_mem_of_mem_zipIdx hr) (BEq.symm he)

theorem Apart.append {a b : List (Qubits × Bool)} {q : Qubits} (ha : Apart a q) (hb : Apart b q) :
    Apart (a ++ b) q := fun c hc => (List.mem_append.1 hc).elim (ha c) (hb c)

/-- Controls apart from those in front are also apart from the next one. -/
theorem apart_append_singleton {before : List (Qubits × Bool)} {q : Qubits} (condition : Bool)
    (hbefore : ∀ r ∈ q :: controls, Apart before r) (hq : ∀ r ∈ controls, ¬ q == r) :
    ∀ r ∈ controls, Apart (before ++ [(q, condition)]) r := by
  intro r hr
  refine (hbefore r (List.mem_cons_of_mem _ hr)).append fun c hc => ?_
  rw [List.mem_singleton.1 hc]
  exact hq r hr

theorem changes_eq (state p : Nat) :
    changes state p = (state.testBit p ^^ (state - 1).testBit p) := Nat.testBit_xor ..

theorem testBit_eq_of_not_changes {state p : Nat} (h : ¬ changes state p) :
    (state - 1).testBit p = state.testBit p := by
  rw [changes_eq, Bool.not_eq_true, bne_eq_false_iff_eq] at h
  exact h.symm

/-- One control on the way to a block: closed and opened again if its bit changes. -/
theorem exists_replay_turn {q : Qubits} {state p : Nat} {before rest : List (Qubits × Bool)}
    (ho : o.Perm (before ++ (q, (state - 1).testBit p) :: rest)) (h : Apart (before ++ rest) q) :
    ∃ o', replay o (if changes state p then
        [closeControl l q, openControl l q (state.testBit p)] else []) = some o' ∧
      o'.Perm (before ++ (q, state.testBit p) :: rest) := by
  split
  · obtain ⟨o', hclose, ho'⟩ := replayStep_close (l := l) (ho.trans List.perm_middle) h
    have hopen : Apart o' q := fun c hc => h c (ho'.mem_iff.1 hc)
    refine ⟨(q, state.testBit p) :: o', ?_, (ho'.cons _).trans List.perm_middle.symm⟩
    simp [replay_cons, hclose, replayStep_open hopen]
  · rename_i hsame
    rw [testBit_eq_of_not_changes hsame] at ho
    exact ⟨o, rfl, ho⟩

/-- **A way moves the open controls from one assignment to the next.**  The controls in front
    of the present one are at the new block already. -/
theorem exists_replay_togglesFrom {state : Nat} : ∀ {p : Nat} {controls : List Qubits}
    {before o : List (Qubits × Bool)}, (∀ q ∈ controls, Apart before q) →
    controls.Pairwise (fun q r => ¬ q == r) →
    o.Perm (before ++ assignmentFrom (state - 1) p controls) →
    ∃ o', replay o (togglesFrom l state p controls) = some o' ∧
      o'.Perm (before ++ assignmentFrom state p controls)
  | _, [], _, o, _, _, ho => ⟨o, rfl, ho⟩
  | p, q :: qs, before, o, hbefore, hd, ho => by
    obtain ⟨hq, hd⟩ := List.pairwise_cons.1 hd
    rw [assignmentFrom_cons] at ho
    have hapart : Apart (before ++ assignmentFrom (state - 1) (p + 1) qs) q :=
      (hbefore q List.mem_cons_self).append (apart_assignmentFrom _ _ hq)
    obtain ⟨o₁, hturn, ho₁⟩ := exists_replay_turn (l := l) ho hapart
    have hbefore' := apart_append_singleton (state.testBit p) hbefore hq
    rw [← List.singleton_append, ← List.append_assoc] at ho₁
    obtain ⟨o₂, hrest, ho₂⟩ := exists_replay_togglesFrom hbefore' hd ho₁
    refine ⟨o₂, ?_, ?_⟩
    · rw [togglesFrom, replay_append, hturn]
      exact hrest
    · rwa [List.append_assoc, List.singleton_append, ← assignmentFrom_cons] at ho₂

/-! ## All ways -/

theorem exists_replay_open : ∀ {controls : List Qubits} {p : Nat}
    {before o : List (Qubits × Bool)}, (∀ q ∈ controls, Apart before q) →
    controls.Pairwise (fun q r => ¬ q == r) → o.Perm before →
    ∃ o', replay o (controls.map (openControl l · false)) = some o' ∧
      o'.Perm (before ++ assignmentFrom 0 p controls)
  | [], _, _, o, _, _, ho => ⟨o, rfl, by simpa [assignmentFrom] using ho⟩
  | q :: qs, p, before, o, hbefore, hd, ho => by
    obtain ⟨hq, hd⟩ := List.pairwise_cons.1 hd
    have hopen : Apart o q := fun c hc => hbefore q List.mem_cons_self c (ho.mem_iff.1 hc)
    have hbefore' := apart_append_singleton false hbefore hq
    obtain ⟨o', hrest, ho'⟩ := exists_replay_open (p := p + 1) hbefore' hd
      ((ho.cons (q, false)).trans (List.perm_append_singleton ..).symm)
    refine ⟨o', ?_, ?_⟩
    · rw [List.map_cons, replay_cons, replayStep_open hopen]
      exact hrest
    · rwa [List.append_assoc, List.singleton_append, ← Nat.zero_testBit p,
        ← assignmentFrom_cons] at ho'

theorem replay_close {state : Nat} : ∀ {controls : List Qubits} {p : Nat}
    {o : List (Qubits × Bool)}, controls.Pairwise (fun q r => ¬ q == r) →
    o.Perm (assignmentFrom state p controls) →
    replay o (controls.map (closeControl l)) = some []
  | [], _, o, _, ho => by
    rw [ho.eq_nil]; rfl
  | q :: qs, p, o, hd, ho => by
    obtain ⟨hq, hd⟩ := List.pairwise_cons.1 hd
    rw [assignmentFrom_cons] at ho
    obtain ⟨o', hclose, ho'⟩ := replayStep_close (l := l) ho (apart_assignmentFrom _ _ hq)
    rw [List.map_cons, replay_cons, hclose]
    exact replay_close hd ho'

/-- The ways to the first blocks leave the controls as the last of these blocks needs them. -/
theorem exists_replay_ways (hd : controls.Pairwise fun q r => ¬ q == r) (state : Nat) :
    ∃ o, replay [] ((List.range (state + 1)).map (way controls l)).flatten = some o ∧
      o.Perm (assignment controls state) := by
  have hapart : ∀ q ∈ controls, Apart [] q := fun _ _ _ hc => by simp at hc
  induction state with
  | zero =>
    obtain ⟨o, hopen, ho⟩ := exists_replay_open (l := l) (p := 0) hapart hd .nil
    exact ⟨o, by simpa [way] using hopen, ho⟩
  | succ state ih =>
    obtain ⟨o, hways, ho⟩ := ih
    obtain ⟨o', hway, ho'⟩ := exists_replay_togglesFrom (l := l) (p := 0) hapart hd
      (show o.Perm ([] ++ assignmentFrom (state + 1 - 1) 0 controls) from ho)
    refine ⟨o', ?_, ho'⟩
    rw [List.range_succ, List.map_append, List.flatten_append, replay_append, hways]
    simpa [way, toggles] using hway

/-! ## Counting -/

/-- Whether an instruction opens a control. -/
def opens : Instruction → Bool
  | .act (.beginControl ..) _ => true
  | _ => false

/-- Whether an instruction closes a control. -/
def closes : Instruction → Bool
  | .act (.endControl _) _ => true
  | _ => false

/-- The number of controls, out of so many, that change on the way to a block. -/
def turned (k state : Nat) : Nat := (List.range k).countP (changes state)

theorem countP_togglesFrom {state : Nat} : ∀ (p : Nat) (controls : List Qubits),
    (togglesFrom l state p controls).countP opens =
        (List.range' p controls.length).countP (changes state) ∧
      (togglesFrom l state p controls).countP closes =
        (List.range' p controls.length).countP (changes state)
  | _, [] => by simp [togglesFrom]
  | p, q :: qs => by
    obtain ⟨hopens, hcloses⟩ := countP_togglesFrom (p + 1) qs
    rw [togglesFrom, List.countP_append, List.countP_append, hopens, hcloses, List.length_cons,
      List.range'_succ, List.countP_cons]
    by_cases h : changes state p
    · rw [if_pos h, if_pos h]
      exact ⟨Nat.add_comm 1 _, Nat.add_comm 1 _⟩
    · simp [h]

theorem changes_two_mul_add_one (j p : Nat) : changes (2 * j + 1) p = decide (p = 0) := by
  rw [changes_eq]
  cases p with
  | zero => simp [Nat.testBit_zero]
  | succ p =>
    have hhalf : (2 * j + 1) / 2 = j := by omega
    simp [Nat.testBit_succ, hhalf]

theorem changes_two_mul_zero (j : Nat) : changes (2 * j) 0 = decide (0 < j) := by
  rw [changes_eq, Nat.testBit_zero, Nat.testBit_zero]
  rcases Nat.eq_zero_or_pos j with rfl | hj
  · rfl
  · have hodd : (2 * j - 1) % 2 = 1 := by omega
    simp [hodd, hj]

theorem changes_two_mul_succ (j p : Nat) : changes (2 * j) (p + 1) = changes j p := by
  have hhalf : (2 * j - 1) / 2 = j - 1 := by omega
  simp [changes_eq, Nat.testBit_succ, hhalf]

theorem turned_two_mul_add_one (k j : Nat) : turned (k + 1) (2 * j + 1) = 1 := by
  have hrest : (List.range k).countP (changes (2 * j + 1) ∘ Nat.succ) = 0 :=
    List.countP_eq_zero.2 fun p _ => by simp [changes_two_mul_add_one]
  rw [turned, List.range_succ_eq_map, List.countP_cons, List.countP_map, hrest]
  simp [changes_two_mul_add_one]

theorem turned_two_mul (k j : Nat) :
    turned (k + 1) (2 * j) = turned k j + if 0 < j then 1 else 0 := by
  have hrest : changes (2 * j) ∘ Nat.succ = changes j := funext fun p => changes_two_mul_succ j p
  rw [turned, List.range_succ_eq_map, List.countP_cons, List.countP_map, hrest,
    changes_two_mul_zero]
  simp [turned]

/-- Twice as many blocks under one more control. -/
theorem sum_turned_two_mul (k m : Nat) :
    ∑ state ∈ Finset.range (2 * (m + 1)), turned (k + 1) state =
      ∑ state ∈ Finset.range (m + 1), turned k state + (2 * m + 1) := by
  induction m with
  | zero =>
    have h0 := turned_two_mul k 0
    have h1 := turned_two_mul_add_one k 0
    simp [Finset.sum_range_succ, h1, h0]
  | succ m ih =>
    have h0 := turned_two_mul k (m + 1)
    have h1 := turned_two_mul_add_one k (m + 1)
    rw [Nat.mul_add_one, Finset.sum_range_succ, Finset.sum_range_succ, ih, h0, h1,
      Finset.sum_range_succ _ (m + 1)]
    simp
    omega

/-- So many controls change altogether that, with the opening at the start, there is one
    opening for each node below the root of a binary tree with the blocks as leaves. -/
theorem sum_turned (k : Nat) :
    ∑ state ∈ Finset.range (2 ^ k), turned k state + k + 2 = 2 ^ (k + 1) := by
  induction k with
  | zero => simp [turned]
  | succ k ih =>
    obtain ⟨m, hm⟩ : ∃ m, 2 ^ k = m + 1 := Nat.exists_eq_add_one.2 (Nat.two_pow_pos k)
    rw [Nat.pow_succ, Nat.mul_comm, hm, sum_turned_two_mul, ← hm]
    omega

theorem countP_way_zero :
    (way controls l 0).countP opens = controls.length ∧ (way controls l 0).countP closes = 0 := by
  have hopens : opens ∘ (openControl l · false) = fun _ => true := rfl
  have hcloses : closes ∘ (openControl l · false) = fun _ => false := rfl
  simp [way, List.countP_map, hopens, hcloses]

theorem countP_way_succ (controls : List Qubits) (l : Option Location) (state : Nat) :
    (way controls l (state + 1)).countP opens = turned controls.length (state + 1) ∧
      (way controls l (state + 1)).countP closes = turned controls.length (state + 1) := by
  rw [way_of_pos state.succ_pos, toggles, if_neg state.succ_ne_zero, turned, List.range_eq_range']
  exact countP_togglesFrom 0 controls

/-- The opening at the start, and one marker of each kind for each change. -/
theorem countP_ways (controls : List Qubits) (l : Option Location) (n : Nat) :
    ((List.range (n + 1)).map (way controls l)).flatten.countP opens =
        controls.length + ∑ state ∈ Finset.range (n + 1), turned controls.length state ∧
      ((List.range (n + 1)).map (way controls l)).flatten.countP closes =
        ∑ state ∈ Finset.range (n + 1), turned controls.length state := by
  have hzero : turned controls.length 0 = 0 :=
    List.countP_eq_zero.2 fun p _ => by simp [changes_eq]
  induction n with
  | zero => simpa [hzero] using countP_way_zero
  | succ n ih =>
    obtain ⟨hopens, hcloses⟩ := ih
    obtain ⟨hopens', hcloses'⟩ := countP_way_succ controls l n
    rw [List.range_succ, List.map_append, List.flatten_append, List.countP_append,
      List.countP_append, hopens, hcloses, Finset.sum_range_succ _ (n + 1)]
    simp only [List.map_cons, List.map_nil, List.flatten_singleton, hopens', hcloses']
    exact ⟨Nat.add_assoc .., trivial⟩

theorem countP_close (controls : List Qubits) (l : Option Location) :
    (controls.map (closeControl l)).countP opens = 0 ∧
      (controls.map (closeControl l)).countP closes = controls.length := by
  have hopens : opens ∘ closeControl l = fun _ => false := rfl
  have hcloses : closes ∘ closeControl l = fun _ => true := rfl
  simp [List.countP_map, hopens, hcloses]

/-- **A mux runs every block under exactly its own assignment.** -/
theorem linearize_replays {blocks : List (List Instruction)} (l : Option Location)
    (hk : controls.length < 64) (hd : controls.Pairwise fun q r => ¬ q == r)
    (hb : blocks.length = 2 ^ controls.length) :
    ∃ ways close, ways.length = blocks.length ∧
      linearize controls blocks l = .ok ((List.zipWith (· ++ ·) ways blocks).flatten ++ close) ∧
      (∀ i ∈ ways.flatten ++ close, i.isControl) ∧
      (∀ state < blocks.length, ∃ o, replay [] (ways.take (state + 1)).flatten = some o ∧
        o.Perm (assignment controls state)) ∧
      replay [] (ways.flatten ++ close) = some [] ∧
      (ways.flatten ++ close).countP opens = 2 ^ (controls.length + 1) - 2 ∧
      (ways.flatten ++ close).countP closes = 2 ^ (controls.length + 1) - 2 := by
  obtain ⟨n, hn⟩ : ∃ n, blocks.length = n + 1 :=
    Nat.exists_eq_add_one.2 (hb ▸ Nat.two_pow_pos controls.length)
  refine ⟨(List.range blocks.length).map (way controls l), controls.map (closeControl l),
    by simp, linearize_eq hk hb, ?_, ?_, ?_, ?_⟩
  · intro i hi
    rcases List.mem_append.1 hi with hi | hi
    · obtain ⟨_, hway, hi⟩ := List.mem_flatten.1 hi
      obtain ⟨state, -, rfl⟩ := List.mem_map.1 hway
      exact isControl_of_mem_way hi
    · exact isControl_of_mem_close hi
  · intro state hstate
    rw [← List.map_take, List.take_range, Nat.min_eq_left hstate]
    exact exists_replay_ways hd state
  · obtain ⟨o, hways, ho⟩ := exists_replay_ways (l := l) hd n
    rw [replay_append, hn, hways]
    exact replay_close hd ho
  · have hsum := sum_turned controls.length
    obtain ⟨hopens, hcloses⟩ := countP_ways controls l n
    obtain ⟨hopens', hcloses'⟩ := countP_close controls l
    rw [← hb, hn] at hsum
    rw [List.countP_append, List.countP_append, hn, hopens, hcloses, hopens', hcloses']
    omega

/-- Two registers of one qubit. -/
def twoControls : List Qubits :=
  [.register ⟨"a", .const 1, .owner⟩, .register ⟨"b", .const 1, .owner⟩]

/-- Blocks for two controls, the third of them empty. -/
def fourBlocks : List (List Instruction) :=
  [[.act .beginDagger none], [.act .endDagger none], [],
    [.act (.measure (.register ⟨"a", .const 1, .owner⟩)) none]]

theorem linearize_replays_pair :
    ∃ ways close, ways.length = fourBlocks.length ∧
      linearize twoControls fourBlocks none =
        .ok ((List.zipWith (· ++ ·) ways fourBlocks).flatten ++ close) ∧
      (∀ i ∈ ways.flatten ++ close, i.isControl) ∧
      (∀ state < fourBlocks.length, ∃ o, replay [] (ways.take (state + 1)).flatten = some o ∧
        o.Perm (assignment twoControls state)) ∧
      replay [] (ways.flatten ++ close) = some [] ∧
      (ways.flatten ++ close).countP opens = 6 ∧ (ways.flatten ++ close).countP closes = 6 :=
  linearize_replays none (by decide)
    (List.pairwise_pair.2 (by rw [Qubits.beq_eq]; decide)) rfl

end Mux

end QuantumLowering
