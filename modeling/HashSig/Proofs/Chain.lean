import HashSig.OneTime.PrivateKey

/-! Signing and verifying walk the two parts of one chain.

A walk may be interrupted at any value (`walk_add`). The signer stops at the
digit, which no chain is too short for (`le_maxDigit_of_mem_expand`), and the
verifier goes on from there, so both end where the public key does
(`recover_sign`).
-/

set_option autoImplicit false

namespace HashSig.OneTime

theorem Width.toNat_mask (w : Width) : w.mask.toNat = w.maxDigit := by
  cases w <;> rfl

-- Steps are numbered in a byte, and chains in two bytes that come before those of the
-- other kinds of input.
theorem Width.maxDigit_lt (w : Width) : w.maxDigit < 256 := by
  cases w <;> decide

theorem ParameterSet.chains_lt (s : ParameterSet) : s.chains < HashInput.publicValueTag.toNat := by
  rcases s with ⟨_ | _, _ | _ | _ | _⟩ <;> decide

theorem Width.le_maxDigit_of_mem_digits (w : Width) {b : Bytes} {d : UInt8} (member : d ∈ w.digits b) :
    d.toNat ≤ w.maxDigit := by
  obtain ⟨x, _, member⟩ := List.mem_flatMap.1 member
  obtain ⟨i, _, rfl⟩ := List.mem_map.1 member
  rw [UInt8.toNat_and, w.toNat_mask]
  exact Nat.and_le_right

namespace ParameterSet

theorem le_maxDigit_of_mem_expand (s : ParameterSet) {hash : Octets s.size.octets} {d : UInt8}
    (member : d ∈ s.expand hash) : d.toNat ≤ s.width.maxDigit := by
  rcases List.mem_append.1 member with front | back
  · exact s.width.le_maxDigit_of_mem_digits (List.mem_of_mem_take front)
  · exact s.width.le_maxDigit_of_mem_digits (List.mem_of_mem_take back)

end ParameterSet

namespace Mode

variable (mode : Mode) (id : Identifier) (q : UInt32)

theorem walk_add (i start a b : Nat) (value : Octets mode.n) :
    mode.walk id q i start (a + b) value =
      mode.walk id q i (start + a) b (mode.walk id q i start a value) := by
  induction a generalizing start value with
  | zero => rw [Nat.zero_add, Nat.add_zero, walk]
  | succ a ih =>
    have later : start + 1 + a = start + (a + 1) := by omega
    rw [Nat.succ_add, walk, ih, later, walk]

-- From the value that signs a digit, the rest of the chain leads to its end.
theorem finish_walk (i : Nat) {digit : UInt8} (bound : digit.toNat ≤ mode.width.maxDigit)
    (start : Octets mode.n) :
    mode.finish id q i digit (mode.walk id q i 0 digit.toNat start) =
      mode.walk id q i 0 mode.width.maxDigit start := by
  have whole : digit.toNat + (mode.width.maxDigit - digit.toNat) = mode.width.maxDigit :=
    Nat.add_sub_cancel' bound
  have split := mode.walk_add id q i 0 digit.toNat (mode.width.maxDigit - digit.toNat) start
  rw [whole, Nat.zero_add] at split
  exact split.symm

theorem le_maxDigit_of_mem_messageDigits {c : Octets mode.n} {msg : Bytes} {d : UInt8}
    (member : d ∈ mode.messageDigits id q c msg) : d.toNat ≤ mode.width.maxDigit :=
  mode.parameters.le_maxDigit_of_mem_expand member

end Mode

namespace PrivateKey

variable {mode : Mode} (key : PrivateKey mode) (msg : Bytes) (c : Octets mode.n)

theorem ends_sign : (key.sign msg c).ends key.id key.q msg = key.ends := by
  have digits := mode.length_messageDigits key.id key.q c msg
  have starts := key.starts_length
  apply List.ext_getElem
  · simp only [Signature.ends, sign, ends, List.length_mapIdx, List.length_zip]
    omega
  · intro i inSignature inKey
    simp only [Signature.ends, sign, ends, List.getElem_mapIdx, List.getElem_zip]
    exact mode.finish_walk key.id key.q i
      (mode.le_maxDigit_of_mem_messageDigits key.id key.q (List.getElem_mem _)) _

theorem recover_sign : (key.sign msg c).recover key.id key.q msg = key.publicKey := by
  rw [Signature.recover, ends_sign]
  rfl

end PrivateKey

end HashSig.OneTime
