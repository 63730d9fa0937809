import HashSig.Proofs.Encoding

/-! What is read was written.

A field that was read, followed by the bytes after it, is what the string goes on with
from where the field begins. So every string that is read is the written form of what
was read from it, and the verifier of byte strings accepts nothing but written keys and
signatures (`verify_eq_ok_iff`).
-/

set_option autoImplicit false

namespace HashSig

/-! ## Fields -/

theorem Bytes.ofUInt32_append_drop {b : Bytes} {start : Nat} {x : UInt32}
    (found : b.uint32At? start = some x) : Bytes.ofUInt32 x ++ b.drop (start + 4) = b.drop start := by
  by_cases fits : start + 4 ≤ b.length
  · rw [uint32At?_of_le fits] at found
    rw [← Option.some.inj found, ofUInt32_uint32At, ← List.drop_drop, List.take_append_drop]
  · rw [uint32At?_eq_none_iff.2 (Nat.lt_of_not_le fits)] at found
    cases found

namespace Octets

variable {n : Nat}

theorem slice_append_drop (b : Bytes) (start n : Nat) (fits : start + n ≤ b.length) :
    (slice b start n fits).bytes ++ b.drop (start + n) = b.drop start := by
  rw [bytes_slice, ← List.drop_drop, List.take_append_drop]

theorem join_pieces_of_length_eq {count : Nat} {b : Bytes} (number : b.length = count * n) :
    join (pieces n count b (Nat.le_of_eq number.symm)) = b := by
  rw [join_pieces, ← number, List.take_length]

end Octets

/-! ## One-time keys and signatures -/

namespace OneTime

variable {mode : Mode}

theorem Mode.typecode_eq_of_expect {got : UInt32} (expected : mode.expectTypecode got = .ok ()) :
    got = mode.typecode := by
  rw [expectTypecode] at expected
  split at expected
  · cases expected
  · split at expected
    · assumption
    · cases expected

theorem Signature.encode_of_decode {b : Bytes} {s : Signature mode} (read : decode mode b = .ok s) :
    s.encode = b := by
  rw [decode] at read
  split at read
  · next typecode found =>
    obtain ⟨_, expected, read⟩ := bind_eq_ok_iff.1 read
    split at read
    · next exact =>
      cases read
      have rest : (b.drop (4 + mode.n)).length = mode.chains * mode.n := by
        rw [List.length_drop, exact, Nat.mul_comm]
        change 4 + mode.n * (mode.chains + 1) - (4 + mode.n) = mode.n * mode.chains
        rw [Nat.mul_succ]
        omega
      rw [encode, ← mode.typecode_eq_of_expect expected]
      dsimp only [fields]
      rw [Octets.join_pieces_of_length_eq rest, Octets.slice_append_drop]
      exact Bytes.ofUInt32_append_drop found
    · cases read
  · cases read

theorem PublicKey.encode_of_decode {b : Bytes} {key : PublicKey mode} (read : decode mode b = .ok key) :
    key.encode = b := by
  rw [decode] at read
  split at read
  · next typecode found =>
    obtain ⟨_, expected, read⟩ := bind_eq_ok_iff.1 read
    split at read
    · next exact =>
      cases read
      have k : (b.drop 24).take mode.n = b.drop 24 := by
        apply List.take_of_length_le
        rw [List.length_drop, exact]
        exact Nat.le_of_eq (Nat.add_sub_cancel_left 24 mode.n)
      rw [encode, ← mode.typecode_eq_of_expect expected]
      dsimp only
      rw [Octets.bytes_slice b 24, k, Bytes.ofUInt32_uint32At, ← List.drop_drop (i := 4) (j := 20),
        List.take_append_drop, Octets.slice_append_drop]
      exact Bytes.ofUInt32_append_drop found
    · cases read
  · cases read

end OneTime

/-! ## Many-time keys and signatures -/

namespace ManyTime

variable {mode : Mode}

theorem Mode.typecode_eq_of_expect {got : UInt32} (expected : mode.expectTypecode got = .ok ()) :
    got = mode.typecode := by
  rw [expectTypecode] at expected
  split at expected
  · cases expected
  · split at expected
    · assumption
    · cases expected

theorem Mode.header_append_drop {short : Error} {b : Bytes}
    (expected : mode.expectHeader short b = .ok ()) : mode.header ++ b.drop 8 = b := by
  rw [expectHeader] at expected
  split at expected
  · next manyTime found =>
    split at expected
    · next oneTime foundOneTime =>
      obtain ⟨_, first, second⟩ := bind_eq_ok_iff.1 expected
      rw [header, ← mode.typecode_eq_of_expect first, ← mode.oneTime.typecode_eq_of_expect second,
        List.append_assoc, Bytes.ofUInt32_append_drop foundOneTime]
      exact Bytes.ofUInt32_append_drop found
    · cases expected
  · cases expected

theorem PublicKey.encode_of_decode {b : Bytes} {key : PublicKey mode} (read : decode mode b = .ok key) :
    key.encode = b := by
  rw [decode] at read
  obtain ⟨_, header, read⟩ := bind_eq_ok_iff.1 read
  split at read
  · next exact =>
    cases read
    have root : (b.drop 24).take mode.n = b.drop 24 := by
      apply List.take_of_length_le
      rw [List.length_drop, exact]
      exact Nat.le_of_eq (Nat.add_sub_cancel_left 24 mode.n)
    rw [encode]
    dsimp only
    rw [Octets.bytes_slice b 24, root, Octets.slice_append_drop]
    exact Mode.header_append_drop header
  · cases read

theorem Signature.encode_of_decode {b : Bytes} {s : Signature mode} (read : decode mode b = .ok s) :
    s.encode = b := by
  rw [decode] at read
  split at read
  · next q foundQ =>
    split at read
    · next oneTimeType foundOneTime =>
      obtain ⟨_, _, read⟩ := bind_eq_ok_iff.1 read
      split at read
      · next manyTimeType foundManyTime =>
        obtain ⟨_, expected, read⟩ := bind_eq_ok_iff.1 read
        split at read
        · next inRange =>
          split at read
          · next exact =>
            obtain ⟨oneTime, inner, read⟩ := bind_eq_ok_iff.1 read
            cases read
            have rest : (b.drop (8 + mode.oneTime.signatureLength)).length = mode.height * mode.n := by
              rw [List.length_drop, exact]
              exact Nat.add_sub_cancel_left _ _
            have path := Bytes.ofUInt32_append_drop foundManyTime
            rw [show 4 + mode.oneTime.signatureLength + 4 = 8 + mode.oneTime.signatureLength by omega]
              at path
            rw [encode, ← mode.typecode_eq_of_expect expected]
            dsimp only [withPath]
            rw [Octets.join_pieces_of_length_eq rest, path, OneTime.Signature.encode_of_decode inner,
              ← List.drop_drop, List.take_append_drop]
            exact Bytes.ofUInt32_append_drop foundQ
          · cases read
        · cases read
      · cases read
    · cases read
  · cases read

/-! ## Verification of byte strings -/

theorem PublicKey.header_prefix_of_decode {b : Bytes} {key : PublicKey mode}
    (read : decode mode b = .ok key) : mode.header <+: b :=
  ⟨key.id.bytes ++ key.root.bytes, encode_of_decode read⟩

theorem Mode.verifyBytes_eq_ok_iff (registered : mode.Registered) {publicKey msg signature : Bytes} :
    mode.verifyBytes publicKey msg signature = .ok () ↔ ∃ (key : PublicKey mode) (s : Signature mode),
      key.encode = publicKey ∧ s.encode = signature ∧ key.check msg s = .ok () := by
  constructor
  · intro accepted
    obtain ⟨key, keyRead, accepted⟩ := bind_eq_ok_iff.1 accepted
    obtain ⟨s, read, accepted⟩ := bind_eq_ok_iff.1 accepted
    exact ⟨key, s, PublicKey.encode_of_decode keyRead, Signature.encode_of_decode read, accepted⟩
  · rintro ⟨key, s, rfl, rfl, accepted⟩
    rw [verifyBytes_encode registered, accepted]

theorem verify_eq_ok_iff {H : Digest} {publicKey msg signature : Bytes} :
    (verifyWith H publicKey msg signature).value = .ok () ↔
      ∃ (set : ParameterSet) (oneTime : OneTime.ParameterSet)
        (key : PublicKey (set.modeWith H oneTime)) (s : Signature (set.modeWith H oneTime)),
          set.size = oneTime.size ∧
          key.encode = publicKey ∧ s.encode = signature ∧ key.check msg s = .ok () := by
  constructor
  · intro accepted
    rw [verifyWith] at accepted
    split at accepted
    · cases accepted
    · next set oneTime found =>
      split at accepted
      · next sizes =>
        obtain ⟨key, s, rest⟩ :=
          (Mode.verifyBytes_eq_ok_iff (set.registered_modeWith H oneTime)).1 accepted
        exact ⟨set, oneTime, key, s, sizes, rest⟩
      · cases accepted
  · rintro ⟨set, oneTime, key, s, sizes, rfl, rfl, accepted⟩
    rw [verify_encode sizes, accepted]

end ManyTime

end HashSig
