/-
  How a combination divides its target.

  * `Lowering.runs`: where consecutive parts of given sizes start and stop.
  * `Lowering.lowerEach`: operations on parts of their own.  A combination is lowered in this way
    on the slices that its runs cut out of the target.
  * `Lowering.weigh_stop`: the last run stops at the sum of the sizes.
  * `Lowering.Tiling`: the runs begin at `0`, follow one another, have the sizes of the elements
    and end where the target ends.
  * `Lowering.lowerCall_tiling`: the runs of a combination are a tiling.
-/
import QuantumLowering.Proofs.Parts
import QuantumLowering.Proofs.ProductSizes
import QuantumLowering.TextHash

namespace QuantumLowering

namespace Lowering

variable {target : Qubits} {start : Quantity} {sizes : List Quantity} {ops : List Operation}
  {site : Option Location} {r : Quantity × Quantity} {i : Nat}

/-! ## Runs -/

/-- Where consecutive parts of the given sizes start and stop. -/
def runs (start : Quantity) : List Quantity → List (Quantity × Quantity)
  | [] => []
  | size :: sizes => (start, start + size) :: runs (start + size) sizes

/-- Lowers operations each on a part of its own, unless the part is refused. -/
def lowerEach [Fingerprint] (site : Option Location) :
    List (Except FormationError Qubits × Operation) → Lowering (List Instruction)
  | [] => pure []
  | (part, op) :: rest => do
    let part ← ofFormation part
    let first ← lowerCall part site op
    let rest ← lowerEach site rest
    return first ++ rest

/-- The parts of the target that consecutive runs cut out. -/
def cut (target : Qubits) (rs : List (Quantity × Quantity)) : List (Except FormationError Qubits) :=
  rs.map fun r => target.slice r.1 r.2

theorem lowerParts_eq [Fingerprint] :
    lowerParts target site start sizes ops =
      lowerEach site ((cut target (runs start sizes)).zip ops) := by
  induction ops generalizing start sizes with
  | nil => simp [lowerParts, lowerEach]
  | cons op ops ih =>
    cases sizes with
    | nil => simp [lowerParts, runs, cut, lowerEach]
    | cons size sizes =>
      simp only [lowerParts, runs, cut, List.map_cons, List.zip_cons_cons, lowerEach, ih]

theorem length_runs : (runs start sizes).length = sizes.length := by
  induction sizes generalizing start with
  | nil => rfl
  | cons size sizes ih => rw [runs, List.length_cons, ih, List.length_cons]

theorem head?_runs (h : r ∈ (runs start sizes).head?) : r.1 = start := by
  cases sizes with
  | nil => simp [runs] at h
  | cons size sizes =>
    obtain rfl : (start, start + size) = r := by simpa [runs] using h
    rfl

theorem isChain_runs : (runs start sizes).IsChain fun r r' => r'.1 = r.2 := by
  induction sizes generalizing start with
  | nil => exact .nil
  | cons size sizes ih =>
    cases sizes with
    | nil => exact .singleton _
    | cons size' sizes => exact .cons_cons rfl ih

/-- Each run has its size behind its start. -/
theorem stop_of_getElem? (h : (runs start sizes)[i]? = some r) :
    ∃ size, sizes[i]? = some size ∧ r.2 = r.1 + size := by
  induction sizes generalizing start i with
  | nil => simp [runs] at h
  | cons size sizes ih =>
    cases i with
    | zero =>
      obtain rfl : (start, start + size) = r := by simpa [runs] using h
      exact ⟨size, rfl, rfl⟩
    | succ i => exact ih h

theorem built_runs (hstart : start.poly.Built) (hsizes : ∀ size ∈ sizes, size.poly.Built) :
    ∀ r ∈ runs start sizes, r.1.poly.Built ∧ r.2.poly.Built := by
  induction sizes generalizing start with
  | nil => simp [runs]
  | cons size sizes ih =>
    obtain ⟨hsize, hsizes⟩ := List.forall_mem_cons.1 hsizes
    have hstop : (start + size).poly.Built := .add hstart hsize
    exact List.forall_mem_cons.2 ⟨⟨hstart, hstop⟩, ih hstop hsizes⟩

/-- The last run stops at the sum of the sizes. -/
theorem weigh_stop {w : PowerProduct Symbol → Int64} (h : r ∈ (runs start sizes).getLast?) :
    Polynomial.weigh w r.2.poly.terms = Polynomial.weigh w start.poly.terms +
      (sizes.map fun size => Polynomial.weigh w size.poly.terms).sum := by
  induction sizes generalizing start with
  | nil => simp [runs] at h
  | cons size sizes ih =>
    rw [List.map_cons, List.sum_cons, ← Int64.add_assoc, ← Quantity.weigh_add]
    cases sizes with
    | nil =>
      obtain rfl : (start, start + size) = r := by simpa [runs] using h
      simp
    | cons size' sizes => exact ih (by simpa [runs] using h)

/-! ## Sizes of the parts -/

/-- The determined sizes are the sizes of the determined elements. -/
theorem knownSize_eq : knownSize ops = Operation.totalSize (ops.filter Operation.isDetermined) := by
  induction ops with
  | nil => rfl
  | cons op ops ih =>
    rw [knownSize]
    split
    · rename_i hd
      rw [List.filter_cons_of_pos hd, Operation.totalSize, ih]
    · rename_i hd
      rw [List.filter_cons_of_neg hd, ih]

/-- All parts together: the determined sizes, and the remainder for each other element. -/
theorem weigh_partSizes {w : PowerProduct Symbol → Int64} {remainder : Quantity} :
    ((partSizes remainder ops).map fun size => Polynomial.weigh w size.poly.terms).sum =
      Polynomial.weigh w (knownSize ops).poly.terms +
        Int64.ofNat (ops.filter fun op => !op.isDetermined).length *
          Polynomial.weigh w remainder.poly.terms := by
  induction ops with
  | nil => simp [partSizes, knownSize, Quantity.const, Quantity.ofPoly, Polynomial.const]
  | cons op ops ih =>
    rw [partSizes, List.map_cons, List.map_cons, List.sum_cons, ih, knownSize]
    by_cases hd : op.isDetermined
    · rw [if_pos hd, if_pos hd, Quantity.weigh_add, List.filter_cons_of_neg (by simp [hd]),
        Int64.add_assoc]
    · rw [if_neg hd, if_neg hd, List.filter_cons_of_pos (by simp [hd]), List.length_cons,
        Int64.ofNat_add]
      grind

/-- The only element that does not satisfy `p` is the one left out. -/
theorem filter_eq_eraseIdx {α : Type} {p : α → Bool} {xs : List α} {x : α} (hx : xs[i]? = some x)
    (hp : p x = false) (hfew : (xs.filter fun x => !p x).length ≤ 1) :
    xs.filter p = xs.eraseIdx i := by
  induction xs generalizing i with
  | nil => simp at hx
  | cons y xs ih =>
    cases i with
    | zero =>
      obtain rfl : y = x := by simpa using hx
      have hall : ∀ z ∈ xs, p z := by simpa [hp] using hfew
      rw [List.filter_cons_of_neg (by simp [hp]), List.filter_eq_self.2 hall,
        List.eraseIdx_cons_zero]
    | succ i =>
      have hx : xs[i]? = some x := hx
      have hy : p y := by
        by_contra hy
        have hmem : x ∈ xs.filter fun x => !p x :=
          List.mem_filter.2 ⟨List.mem_of_getElem? hx, by simp [hp]⟩
        have hpos := List.length_pos_of_mem hmem
        rw [List.filter_cons_of_pos (by simpa using hy), List.length_cons] at hfew
        omega
      rw [List.filter_cons_of_pos hy, List.eraseIdx_cons_succ]
      rw [List.filter_cons_of_neg (by simpa using hy)] at hfew
      rw [ih hx hfew]

/-! ## Tilings -/

/-- The runs divide the target among the elements of a combination. -/
structure Tiling (target : Qubits) (ops : List Operation) (rs : List (Quantity × Quantity)) :
    Prop where
  length : rs.length = ops.length
  /-- At most one element has no size of its own. -/
  open_le_one : (ops.filter fun op => !op.isDetermined).length ≤ 1
  first : ∀ r ∈ rs.head?, r.1 = Quantity.const 0
  next : rs.IsChain fun r r' => r'.1 = r.2
  /-- Each run spans the size of its element; one without a size of its own gets what the others
      leave of the target. -/
  span : ∀ (i : Nat) (op : Operation) (r : Quantity × Quantity), ops[i]? = some op →
    rs[i]? = some r → (r.2 - r.1).poly = if op.isDetermined then op.size.poly
      else (target.size - Operation.totalSize (ops.eraseIdx i)).poly
  /-- The part that a run cuts out is a slice or, if the run spans `1`, a single qubit. -/
  part : ∀ r ∈ rs, ∀ part, target.slice r.1 r.2 = .ok part →
    part = .strided target r.1 r.2 (.const 1) ∨
      part = .single target r.1 ∧ (r.2 - r.1).poly = .const 1
  size : ∀ r ∈ rs, ∀ part, target.slice r.1 r.2 = .ok part → part.size.poly = (r.2 - r.1).poly
  /-- The last run ends with the target if an element takes what is left, or else if the sizes of
      the elements add up to that of the target. -/
  last : Operation.allDetermined ops = false ∨
      (Operation.totalSize ops).poly = target.size.poly →
    ∀ r ∈ rs.getLast?, r.2.poly = target.size.poly

/-- The determined sizes are those of all elements but the one without a size of its own. -/
theorem knownSize_eq_eraseIdx {op : Operation} (hop : ops[i]? = some op) (hd : ¬op.isDetermined)
    (hfew : (ops.filter fun op => !op.isDetermined).length ≤ 1) :
    knownSize ops = Operation.totalSize (ops.eraseIdx i) := by
  rw [knownSize_eq, filter_eq_eraseIdx hop (by simpa using hd) hfew]

/-- The sizes of the parts add up to that of the target. -/
theorem weigh_partSizes_eq_target {w : PowerProduct Symbol → Int64}
    (hfew : (ops.filter fun op => !op.isDetermined).length ≤ 1)
    (h : Operation.allDetermined ops = false ∨
      (Operation.totalSize ops).poly = target.size.poly) :
    ((partSizes (target.size - knownSize ops) ops).map fun size =>
      Polynomial.weigh w size.poly.terms).sum = Polynomial.weigh w target.size.poly.terms := by
  rw [weigh_partSizes, Quantity.weigh_sub]
  match hopen : ops.filter fun op => !op.isDetermined with
  | [] =>
    -- nothing takes the remainder, and the determined sizes are all sizes
    have hself : ops.filter Operation.isDetermined = ops :=
      List.filter_eq_self.2 fun op hop => by simpa using List.filter_eq_nil_iff.1 hopen op hop
    have htotal := h.resolve_left (by simp [allDetermined_of_filter hopen])
    have hnone : Int64.ofNat ([] : List Operation).length = 0 := rfl
    rw [hopen, hnone, knownSize_eq, hself, htotal, Int64.zero_mul, Int64.add_zero]
  | [op] =>
    -- the remainder is taken once, so the determined sizes cancel
    have hone : Int64.ofNat [op].length = 1 := rfl
    rw [hopen, hone]
    grind
  | _ :: _ :: _ => simp [hopen] at hfew

theorem built_knownSize (hops : ∀ op ∈ ops, op.size.poly.Built) : (knownSize ops).poly.Built := by
  induction ops with
  | nil => exact Polynomial.Built.const (c := 0)
  | cons op ops ih =>
    obtain ⟨hop, hops⟩ := List.forall_mem_cons.1 hops
    rw [knownSize]
    split
    · exact .add hop (ih hops)
    · exact ih hops

section
variable (hops : ∀ op ∈ ops, op.size.poly.Built) (htarget : target.size.poly.Built)
include hops htarget

theorem built_partSizes :
    ∀ size ∈ partSizes (target.size - knownSize ops) ops, size.poly.Built := by
  refine List.forall_mem_map.2 fun op hop => ?_
  split
  · exact hops op hop
  · exact .sub htarget (built_knownSize hops)

/-- The runs of the sizes that a combination is split into are a tiling. -/
theorem tiling_runs (hfew : (ops.filter fun op => !op.isDetermined).length ≤ 1) :
    Tiling target ops (runs (.const 0) (partSizes (target.size - knownSize ops) ops)) := by
  have hsizes := built_partSizes hops htarget
  have hzero : (Quantity.const 0).poly.Built := Polynomial.Built.const (c := 0)
  have hbuilt := built_runs hzero hsizes
  refine ⟨by rw [length_runs, List.length_map], hfew, fun _ => head?_runs, isChain_runs,
    fun i op r hop hr => ?span, fun r _ part h => ?part, fun _ _ _ => Qubits.poly_size_slice,
    fun h r hr => ?last⟩
  case span =>
    obtain ⟨size, hsize, hstop⟩ := stop_of_getElem? hr
    have hstart := (hbuilt r (List.mem_of_getElem? hr)).1
    have hspan : (r.1 + size - r.1).poly = size.poly :=
      Polynomial.InOrder.add_sub_cancel_left hstart.canonical.inOrder
        (hsizes size (List.mem_of_getElem? hsize)).canonical.inOrder
    obtain rfl : (if op.isDetermined then op.size else target.size - knownSize ops) = size := by
      simpa [partSizes, hop] using hsize
    rw [hstop, hspan]
    split
    · rfl
    · rename_i hd
      rw [knownSize_eq_eraseIdx hop hd hfew]
  case part =>
    obtain ⟨-, -, ⟨h1, h⟩ | ⟨-, -, h⟩⟩ := Qubits.slice_ok h
    · exact .inr ⟨(Qubits.element_ok h).1, Polynomial.eq_one_of_constant? h1⟩
    · exact .inl h
  case last =>
    refine Polynomial.InOrder.ext (hbuilt r (List.mem_of_getLast? hr)).2.canonical.inOrder
      htarget.canonical.inOrder fun w => ?_
    have hstart : Polynomial.weigh w (Quantity.const 0).poly.terms = 0 :=
      Polynomial.weigh_const.trans Int64.zero_mul
    rw [weigh_stop hr, hstart, weigh_partSizes_eq_target hfew h, Int64.zero_add]

end

/-- **A combination tiles its target**, of whatever sizes: if it can be split, its elements are
    lowered one after another on slices of the target that are cut out by a tiling. -/
theorem lowerCall_tiling [Fingerprint] {own : Option Location}
    (hops : ∀ op ∈ ops, op.size.poly.Built) (htarget : target.size.poly.Built)
    (h : splitSizes (.combination ops own) ops target (site.or own) = .ok sizes) :
    lowerCall target site (.combination ops own) =
        lowerEach (site.or own) ((cut target (runs (.const 0) sizes)).zip ops) ∧
      Tiling target ops (runs (.const 0) sizes) := by
  obtain ⟨hsizes, hfew⟩ := splitSizes_eq_ok h
  refine ⟨?_, hsizes ▸ tiling_runs hops htarget hfew⟩
  rw [lowerCall, h, ← lowerParts_eq]
  rfl

/-- An operation on `n` qubits, a gate, and an operation that takes what is left of `m` qubits. -/
theorem lowerCall_tiling_rest :
    let target : Qubits := .register ⟨"q", .named "m", .reference⟩
    let rest : Operation :=
      .elementary (.call ⟨"rest", [], ⟨⟨"r", .named "k", .reference⟩, some "k"⟩, none⟩ []) none
    let ops := [.wide, .ofGate .x, rest]
    (∀ op ∈ ops, op.size.poly.Built) ∧ target.size.poly.Built ∧
      ∃ sizes, splitSizes (.combination ops none) ops target none = .ok sizes ∧
        lowerCall target none (.combination ops none) =
          lowerEach none ((cut target (runs (.const 0) sizes)).zip ops) ∧
        Tiling target ops (runs (.const 0) sizes) ∧
        ∀ r ∈ (runs (.const 0) sizes).getLast?, r.2.poly = .named "m" := by
  intro target rest ops
  have hops : ∀ op ∈ ops, op.size.poly.Built := by
    have hwide : Operation.wide.size.poly.Built := Operation.size_wide ▸ .ofSymbol
    have hgate : (Operation.ofGate .x).size.poly.Built :=
      Operation.size_ofGate ▸ Polynomial.Built.const (c := 1)
    have hrest : rest.size.poly.Built := by
      rw [Operation.size]
      exact .ofSymbol
    exact List.forall_mem_cons.2 ⟨hwide, List.forall_mem_cons.2 ⟨hgate,
      List.forall_mem_singleton.2 hrest⟩⟩
  have hsize : target.size = .named "m" := by rw [Qubits.size]
  have htarget : target.size.poly.Built := hsize ▸ .ofSymbol
  have hsplit : splitSizes (.combination ops none) ops target none =
      .ok (partSizes (target.size - knownSize ops) ops) := rfl
  obtain ⟨hlower, htiling⟩ := @lowerCall_tiling target _ ops none _ none hops htarget hsplit
  have hlast := htiling.last (.inl (by decide))
  exact ⟨hops, htarget, _, hsplit, hlower, htiling,
    fun r hr => (hlast r hr).trans (congrArg Quantity.poly hsize)⟩

end Lowering

end QuantumLowering
