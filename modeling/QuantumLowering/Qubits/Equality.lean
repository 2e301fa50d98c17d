/-
  Equality of descriptions of qubits: structural, up to source positions.

  * `Qubits.beq`: the structural comparison.
  * `Qubits.digest_eq_of_beq`: equal descriptions have the same digest.
  * `Qubits.same`: the comparison that stops at shared nodes and at different digests.  It
    returns its own specification, since a shortcut has to be justified where it is taken.

  Two descriptions built from the same shared parts are compared in few steps, however large
  the trees are that they stand for.
-/
import QuantumLowering.Qubits.Basic

namespace QuantumLowering

namespace Qubits

mutual
/-- Structural equality. -/
def beq : Qubits → Qubits → Bool
  | .register v, .register w => v == w
  | .fresh i n a, .fresh j m b => i == j && n == m && a == b
  | .strided q a b c, .strided r a' b' c' => beq q r && a == a' && b == b' && c == c'
  | .single q i, .single r j => beq q r && i == j
  | .joined qs, .joined rs => beqList qs rs
  | _, _ => false

/-- `beq` on lists. -/
def beqList : List Qubits → List Qubits → Bool
  | [], [] => true
  | q :: qs, r :: rs => beq q r && beqList qs rs
  | _, _ => false
end

mutual
/-- Every description is equal to itself. -/
theorem beq_self : ∀ q : Qubits, beq q q = true
  | .register _ | .fresh .. => by simp [beq]
  | .strided q .. | .single q _ => by simp [beq, beq_self q]
  | .joined qs => by simp [beq, beqList_self qs]

/-- `beq_self` on lists. -/
theorem beqList_self : ∀ qs : List Qubits, beqList qs qs = true
  | [] => by simp [beqList]
  | q :: qs => by simp [beqList, beq_self q, beqList_self qs]
end

mutual
/-- Equal descriptions have the same digest. -/
theorem digest_eq_of_beq : ∀ {q r : Qubits}, beq q r = true → q.digest = r.digest
  | .register _, .register _, h => by
    obtain ⟨hn, hs, ho⟩ := QuantumVariable.beq_iff.1 h
    simp [digest, hn, hs, ho]
  | .fresh _ _ a, .fresh _ _ b, h => by
    simp only [beq, Bool.and_eq_true, Quantity.beq_iff, beq_iff_eq] at h
    obtain ⟨⟨rfl, hn⟩, ha⟩ := h
    cases a <;> cases b <;> simp_all [digest, Quantity.beq_iff]
  | .strided .., .strided .., h => by
    simp only [beq, Bool.and_eq_true, Quantity.beq_iff] at h
    simp [digest, h, digest_eq_of_beq h.1.1.1]
  | .single .., .single .., h => by
    simp only [beq, Bool.and_eq_true, Quantity.beq_iff] at h
    simp [digest, h, digest_eq_of_beq h.1]
  | .joined _, .joined _, h => by simp [digest, digests_eq_of_beqList h]

/-- Equal lists have the same digests. -/
theorem digests_eq_of_beqList : ∀ {qs rs : List Qubits}, beqList qs rs = true →
    qs.foldr (fun q s => Code.number q.digest.toNat ++ s) "j" =
      rs.foldr (fun q s => Code.number q.digest.toNat ++ s) "j"
  | [], [], _ => rfl
  | _ :: _, _ :: _, h => by
    simp only [beqList, Bool.and_eq_true] at h
    simp [digest_eq_of_beq h.1, digests_eq_of_beqList h.2]
end

/-- A comparison that is only carried out on different nodes with the same digest. -/
def shortcut (q r : Qubits) (compare : Unit → { b : Bool // b = beq q r }) :
    { b : Bool // b = beq q r } :=
  ⟨withPtrEq q r (fun _ => q.digest == r.digest && (compare ()).1)
      (by rintro rfl; simp [(compare ()).2, beq_self]),
    by
      simp only [withPtrEq, (compare ()).2]
      cases h : beq q r with
      | false => simp
      | true => simp [digest_eq_of_beq h]⟩

mutual
/-- Structural equality, in few steps where nodes are shared. -/
def same (q r : Qubits) : { b : Bool // b = beq q r } :=
  shortcut q r fun _ =>
    match q, r with
    | .strided q a b c, .strided r a' b' c' =>
      ⟨(same q r).1 && a == a' && b == b' && c == c', by rw [(same q r).2, beq]⟩
    | .single q i, .single r j => ⟨(same q r).1 && i == j, by rw [(same q r).2, beq]⟩
    | .joined qs, .joined rs => ⟨(sameList qs rs).1, by rw [(sameList qs rs).2, beq]⟩
    | q, r => ⟨beq q r, rfl⟩

/-- `same` on lists. -/
def sameList (qs rs : List Qubits) : { b : Bool // b = beqList qs rs } :=
  match qs, rs with
  | q :: qs, r :: rs =>
    ⟨(same q r).1 && (sameList qs rs).1, by rw [(same q r).2, (sameList qs rs).2, beqList]⟩
  | qs, rs => ⟨beqList qs rs, rfl⟩
end

instance : BEq Qubits := ⟨fun q r => (same q r).1⟩

/-- The equality test is the structural one. -/
theorem beq_eq (q r : Qubits) : (q == r) = beq q r := (same q r).2

end Qubits

end QuantumLowering
