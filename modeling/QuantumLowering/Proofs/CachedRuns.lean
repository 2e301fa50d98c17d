/-
  Runs of blocks that remember their lowering.

  * `BlockKind`: what can be done with blocks of some kind; `BlockKind.cached` are those that
    remember their lowering, `BlockKind.plain` are lists of statements that remember nothing.
  * `BlockKind.Request`, `serveAll`: requests to any number of blocks, which are numbered in the
    order in which they were made.
  * `CachedBlock.Fresh`: the code that is remembered is the one the statements are lowered to.
    Every request keeps this for all blocks.
  * `serveAll_cached`: over any run, blocks that remember give the answers of blocks that do not,
    and have the same statements.

  Lowering a block looks at the statements in the bodies of its statements and not at what a body
  may remember, so bodies are lists here.
-/
import Mathlib
import QuantumLowering.CachedBlock
import QuantumLowering.TextHash

namespace QuantumLowering

/-! ## Requests -/

/-- What can be done with blocks of some kind. -/
structure BlockKind (β : Type) where
  ofStatements : List Statement → β
  push : β → Statement → β
  apply : β → Operation → Qubits → Option Location → Except FormationError β
  append : β → β → β
  /-- The lowered code, and what the block has become. -/
  decompose : β → Except LoweringError (List Instruction) × β

namespace BlockKind

variable {β : Type} [Fingerprint]

/-- Blocks that remember their lowering. -/
def cached : BlockKind CachedBlock where
  ofStatements := CachedBlock.ofStatements
  push := CachedBlock.push
  apply := CachedBlock.apply
  append := CachedBlock.append
  decompose := CachedBlock.decompose

/-- Lists of statements, which are lowered whenever their code is asked for. -/
def plain : BlockKind (List Statement) where
  ofStatements statements := statements
  push b s := b ++ [s]
  apply b operation target location :=
    (Statement.ofCall operation target location).map fun s => b ++ [s]
  append b other := b ++ other
  decompose b := (lowerBlock b, b)

/-- What can be asked of blocks with numbers.  A block that is moved into another one may stay
    where it is: no more is asked of it. -/
inductive Request
  /-- A new block, empty or collected from statements. -/
  | create (statements : List Statement)
  | clone (block : Nat)
  | push (block : Nat) (statement : Statement)
  | apply (block : Nat) (operation : Operation) (target : Qubits) (location : Option Location)
  | append (block other : Nat)
  | decompose (block : Nat)

/-- The answer to a request. -/
inductive Answer
  | done
  | refused (error : FormationError)
  | lowered (result : Except LoweringError (List Instruction))
  /-- There is no block of this number. -/
  | unknown

/-- Asks one block, which is replaced by what it becomes. -/
def ask (f : β → Answer × β) (blocks : List β) (i : Nat) : Answer × List β :=
  match blocks[i]? with
  | none => (.unknown, blocks)
  | some b => ((f b).1, blocks.set i (f b).2)

/-- The answer to a request, and the blocks after it. -/
def serve (K : BlockKind β) (blocks : List β) : Request → Answer × List β
  | .create statements => (.done, blocks ++ [K.ofStatements statements])
  | .clone i =>
    match blocks[i]? with
    | none => (.unknown, blocks)
    | some b => (.done, blocks ++ [b])
  | .push i s => ask (fun b => (.done, K.push b s)) blocks i
  | .apply i operation target location =>
    ask (fun b =>
      match K.apply b operation target location with
      | .ok b' => (.done, b')
      | .error e => (.refused e, b)) blocks i
  | .append i j =>
    match blocks[j]? with
    | none => (.unknown, blocks)
    | some other => ask (fun b => (.done, K.append b other)) blocks i
  | .decompose i => ask (fun b => (.lowered (K.decompose b).1, (K.decompose b).2)) blocks i

/-- The answers to requests one after another, and the blocks after them. -/
def serveAll (K : BlockKind β) : List β → List Request → List Answer × List β
  | blocks, [] => ([], blocks)
  | blocks, r :: requests =>
    let (answer, blocks) := K.serve blocks r
    let (answers, blocks) := K.serveAll blocks requests
    (answer :: answers, blocks)

end BlockKind

/-! ## Fresh blocks -/

namespace CachedBlock

variable {b other : CachedBlock} [Fingerprint]

/-- The code that is remembered is the one the statements are lowered to. -/
def Fresh (b : CachedBlock) : Prop :=
  ∀ code, b.code = some code → lowerBlock b.statements = .ok code

theorem Fresh.of_code_eq_none (h : b.code = none) : b.Fresh := by
  intro code hcode
  rw [h] at hcode
  cases hcode

theorem fresh_ofStatements (statements : List Statement) : (ofStatements statements).Fresh :=
  .of_code_eq_none rfl

theorem fresh_push (b : CachedBlock) (s : Statement) : (b.push s).Fresh := .of_code_eq_none rfl

theorem fresh_append (b other : CachedBlock) : (b.append other).Fresh := .of_code_eq_none rfl

theorem statements_decompose (b : CachedBlock) : b.decompose.2.statements = b.statements := by
  unfold decompose
  split
  · rfl
  · split <;> rfl

/-- A fresh block answers with the code of its statements. -/
theorem Fresh.decompose_eq (h : b.Fresh) : b.decompose.1 = lowerBlock b.statements := by
  unfold decompose
  split
  · rename_i code hcode
    exact (h code hcode).symm
  · split
    · rename_i code hcode
      exact hcode.symm
    · rename_i e herror
      exact herror.symm

/-- What is remembered after lowering is what lowering has given. -/
theorem Fresh.decompose (h : b.Fresh) : b.decompose.2.Fresh := by
  unfold CachedBlock.decompose
  split
  · exact h
  · rename_i hnone
    split
    · rename_i code hcode
      intro code' hcode'
      obtain rfl := Option.some.inj hcode'
      exact hcode
    · exact .of_code_eq_none hnone

end CachedBlock

/-! ## Runs -/

namespace BlockKind

open CachedBlock (Fresh)

/-- A block that is not done with its request is left as it was. -/
theorem ask_of_ne_done {β : Type} {f : β → Answer × β} {blocks : List β} {i : Nat}
    (hf : ∀ b, (f b).1 ≠ .done → (f b).2 = b) (h : (ask f blocks i).1 ≠ .done) :
    (ask f blocks i).2 = blocks := by
  unfold ask at h ⊢
  cases hb : blocks[i]? with
  | none => rfl
  | some b =>
    simp only [hb] at h ⊢
    rw [hf b h]
    obtain ⟨hi, rfl⟩ := List.getElem?_eq_some_iff.1 hb
    exact List.set_getElem_self hi

section

variable [Fingerprint]

/-- Blocks that remember have come to the same as lists of statements: they gave the same answer,
    have the same statements, and are fresh. -/
structure Agrees {α : Type} (x : α × List CachedBlock) (y : α × List (List Statement)) :
    Prop where
  answer : x.1 = y.1
  statements : x.2.map (·.statements) = y.2
  fresh : ∀ b ∈ x.2, b.Fresh

variable {blocks : List CachedBlock}

/-- What holds of one block holds after it was asked among others. -/
theorem agrees_ask {f : CachedBlock → Answer × CachedBlock}
    {g : List Statement → Answer × List Statement} (hblocks : ∀ b ∈ blocks, b.Fresh)
    (h : ∀ b, b.Fresh → (f b).1 = (g b.statements).1 ∧
      (f b).2.statements = (g b.statements).2 ∧ (f b).2.Fresh) (i : Nat) :
    Agrees (ask f blocks i) (ask g (blocks.map (·.statements)) i) := by
  unfold ask
  rw [List.getElem?_map]
  cases hb : blocks[i]? with
  | none => exact ⟨rfl, rfl, hblocks⟩
  | some b =>
    obtain ⟨hanswer, hstatements, hfresh⟩ := h b (hblocks b (List.mem_of_getElem? hb))
    refine ⟨hanswer, ?_, ?_⟩
    · show (blocks.set i (f b).2).map (·.statements) = (blocks.map _).set i (g b.statements).2
      rw [List.map_set, hstatements]
    · intro c hc
      rcases List.mem_or_eq_of_mem_set hc with hc | rfl
      · exact hblocks c hc
      · exact hfresh

/-- One request keeps the blocks in agreement. -/
theorem agrees_serve (h : ∀ b ∈ blocks, b.Fresh) (r : Request) :
    Agrees (cached.serve blocks r) (plain.serve (blocks.map (·.statements)) r) := by
  have hnew : ∀ {c : CachedBlock}, c.Fresh → ∀ b ∈ blocks ++ [c], b.Fresh := by
    intro c hc b hb
    rcases List.mem_append.1 hb with hb | hb
    · exact h b hb
    · rwa [List.mem_singleton.1 hb]
  cases r with
  | create statements =>
    exact ⟨rfl, List.map_append, hnew (CachedBlock.fresh_ofStatements statements)⟩
  | clone i =>
    simp only [serve, List.getElem?_map]
    cases hb : blocks[i]? with
    | none => exact ⟨rfl, rfl, h⟩
    | some b => exact ⟨rfl, List.map_append, hnew (h b (List.mem_of_getElem? hb))⟩
  | push i s => exact agrees_ask h (fun b _ => ⟨rfl, rfl, b.fresh_push s⟩) i
  | apply i operation target location =>
    refine agrees_ask h (fun b hb => ?_) i
    -- the call is refused for its own sake, before the block is looked at
    simp only [cached, plain, CachedBlock.apply]
    cases Statement.ofCall operation target location with
    | ok s => exact ⟨rfl, rfl, b.fresh_push s⟩
    | error e => exact ⟨rfl, rfl, hb⟩
  | append i j =>
    simp only [serve, List.getElem?_map]
    cases hj : blocks[j]? with
    | none => exact ⟨rfl, rfl, h⟩
    | some other => exact agrees_ask h (fun b _ => ⟨rfl, rfl, b.fresh_append other⟩) i
  | decompose i =>
    refine agrees_ask h (fun b hb => ⟨?_, b.statements_decompose, hb.decompose⟩) i
    exact congrArg Answer.lowered hb.decompose_eq

theorem agrees_serveAll (requests : List Request) (h : ∀ b ∈ blocks, b.Fresh) :
    Agrees (cached.serveAll blocks requests)
      (plain.serveAll (blocks.map (·.statements)) requests) := by
  induction requests generalizing blocks with
  | nil => exact ⟨rfl, rfl, h⟩
  | cons r requests ih =>
    have hstep := agrees_serve h r
    have hrest := ih hstep.fresh
    rw [hstep.statements] at hrest
    refine ⟨?_, hrest.statements, hrest.fresh⟩
    simp only [serveAll, hstep.answer, hrest.answer]

/-- Only requests that are done change a list. -/
theorem serve_plain_of_ne_done {lists : List (List Statement)} {r : Request}
    (h : (plain.serve lists r).1 ≠ .done) : (plain.serve lists r).2 = lists := by
  cases r with
  | create statements => exact absurd rfl h
  | clone i =>
    simp only [serve] at h ⊢
    cases hi : lists[i]? with
    | none => rfl
    | some b => simp [hi] at h
  | push i s => exact ask_of_ne_done (fun b hb => absurd rfl hb) h
  | apply i operation target location =>
    refine ask_of_ne_done (fun b hb => ?_) h
    split at hb
    · exact absurd rfl hb
    · rfl
  | append i j =>
    simp only [serve] at h ⊢
    cases hj : lists[j]? with
    | none => rfl
    | some other =>
      simp only [hj] at h ⊢
      exact ask_of_ne_done (fun b hb => absurd rfl hb) h
  | decompose i => exact ask_of_ne_done (fun b _ => rfl) h

/-- **The code that blocks remember is never stale.**  Over any run they give the same answers as
    lists that are lowered whenever they are asked, with the same statements: afterwards each block
    is lowered to the code of its statements and keeps them, and a request that is not done, be it
    refused or an inquiry, changes no statements. -/
theorem serveAll_cached (requests : List Request) :
    (cached.serveAll [] requests).1 = (plain.serveAll [] requests).1 ∧
      (cached.serveAll [] requests).2.map (·.statements) = (plain.serveAll [] requests).2 ∧
      (∀ b ∈ (cached.serveAll [] requests).2,
        b.decompose.1 = lowerBlock b.statements ∧ b.decompose.2.statements = b.statements) ∧
      ∀ r, (cached.serve (cached.serveAll [] requests).2 r).1 ≠ .done →
        (cached.serve (cached.serveAll [] requests).2 r).2.map (·.statements) =
          (cached.serveAll [] requests).2.map (·.statements) := by
  have hrun : Agrees (cached.serveAll [] requests) (plain.serveAll [] requests) :=
    agrees_serveAll requests fun _ h => absurd h List.not_mem_nil
  refine ⟨hrun.answer, hrun.statements, ?_, ?_⟩
  · intro b hb
    exact ⟨(hrun.fresh b hb).decompose_eq, b.statements_decompose⟩
  · intro r hr
    have hstep := agrees_serve hrun.fresh r
    rw [hstep.answer] at hr
    rw [hstep.statements, serve_plain_of_ne_done hr]

end

/-- A gate on a qubit, refused on a pair, lowered and copied; the copy is measured and appended to
    the block, and the copy and the block are lowered. -/
def copying : List Request :=
  let q : Qubits := .register ⟨"q", .const 1, .owner⟩
  [.create [], .apply 0 (.ofGate .x) q none, .apply 0 (.ofGate .swap) q none, .decompose 0,
    .clone 0, .push 1 (.primitive (.act (.measure q) none)), .append 0 1, .decompose 1,
    .decompose 0]

/-- After the copying both blocks remember code, each that of its own statements. -/
theorem serveAll_cached_copying :
    (cached.serveAll [] copying).2.map (fun b => b.code.map List.length) = [some 3, some 2] ∧
      ∀ b ∈ (cached.serveAll [] copying).2,
        b.decompose.1 = lowerBlock b.statements ∧ b.decompose.2.statements = b.statements :=
  ⟨by cbv, (serveAll_cached copying).2.2.1⟩

end BlockKind

end QuantumLowering
