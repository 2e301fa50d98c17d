/-
  The identifiers under which qubits are declared.

  * `Qubits.identifier`: the name of a register, and for all other qubits their kind and the
    hexadecimal digits of their digest.

  Equal descriptions have the same identifier.
-/
import QuantumLowering.Qubits.Equality

namespace QuantumLowering

namespace Qubits

/-- The word in front of a generated identifier. -/
def kindWord : Qubits → String
  | register _ => "qubitVariable"
  | fresh .. => "qubitAlloc"
  | strided .. => "qubitSlicing"
  | single .. => "qubitIndexing"
  | joined _ => "qubitConcat"

/-- The identifier used in generated code. -/
def identifier (q : Qubits) : String :=
  match q with
  | register v => v.name
  | _ => q.kindWord ++ "_" ++ String.ofList (Nat.toDigits 16 q.digest.toNat)

end Qubits

end QuantumLowering
