import HashSig.Proofs.Binding

/-! What follows from a signature by hashing.

A signature shows one value of each chain, and from there a chain can be walked to its
end, but not back. So the values that a signature yields are those from its digit on
(`Signature.exists_yields_iff`). Of two hashes each has a digit that is below the other's,
so a signature yields the values of no hash but its own (`Signature.yields_all_iff`).
-/

set_option autoImplicit false

namespace HashSig.OneTime

namespace ParameterSet

variable (s : ParameterSet)

def digit (hash : Octets s.size.octets) (i : Fin s.chains) : UInt8 :=
  (s.expand hash).get (i.cast (s.length_expand hash).symm)

variable {hash other : Octets s.size.octets}

theorem exists_digit_lt (different : hash ≠ other) : ∃ i, s.digit other i < s.digit hash i := by
  obtain ⟨i, inHash, inOther, less⟩ := s.exists_expand_lt different
  rw [length_expand] at inHash
  exact ⟨⟨i, inHash⟩, less⟩

end ParameterSet

variable {mode : Mode}

/-- The signature shows the value with which it signs the digit of chain `i`, and what
is yielded is hashed to the next value of the chain. -/
inductive Signature.Yields (s : Signature mode) (id : Identifier) (q : UInt32) (msg : Bytes)
    (i : Fin mode.chains) : (j : Nat) → Octets mode.n → Prop where
  | shown : s.Yields id q msg i (s.digit id q msg i).toNat (s.valueOn i)
  | step {j : Nat} {value : Octets mode.n} : j < mode.width.maxDigit → s.Yields id q msg i j value →
      s.Yields id q msg i (j + 1)
        (mode.hash.apply (.chainStep id q (UInt16.ofNat i) (UInt8.ofNat j) value))

namespace Signature

variable {s : Signature mode} {id : Identifier} {q : UInt32} {msg : Bytes} {i : Fin mode.chains}
  {j : Nat} {value : Octets mode.n}

theorem Yields.digit_le (yields : s.Yields id q msg i j value) :
    (s.digit id q msg i).toNat ≤ j ∧ j ≤ mode.width.maxDigit := by
  induction yields with
  | shown => exact ⟨Nat.le_refl _, s.digit_le_maxDigit msg i⟩
  | step more _ ih => exact ⟨Nat.le_succ_of_le ih.1, more⟩

theorem exists_yields_of_le (behind : (s.digit id q msg i).toNat ≤ j) (bound : j ≤ mode.width.maxDigit) :
    ∃ value, s.Yields id q msg i j value := by
  induction behind with
  | refl => exact ⟨_, .shown⟩
  | step _ ih =>
    obtain ⟨value, yields⟩ := ih (Nat.le_of_succ_le bound)
    exact ⟨_, .step bound yields⟩

theorem exists_yields_iff : (∃ value, s.Yields id q msg i j value) ↔
    (s.digit id q msg i).toNat ≤ j ∧ j ≤ mode.width.maxDigit := by
  constructor
  · rintro ⟨value, yields⟩
    exact yields.digit_le
  · rintro ⟨behind, bound⟩
    exact exists_yields_of_le behind bound

/-- The only hash of which a signature yields all chain values is its own. -/
theorem yields_all_iff {target : Octets mode.n} :
    (∀ i, ∃ value, s.Yields id q msg i (mode.parameters.digit target i).toNat value) ↔
      target = mode.hash.apply (.message id q s.c msg) := by
  simp only [exists_yields_iff]
  constructor
  · intro all
    by_contra different
    obtain ⟨i, less⟩ := mode.parameters.exists_digit_lt (Ne.symm different)
    exact Nat.not_lt.2 (all i).1 (UInt8.lt_iff_toNat_lt.1 less)
  · rintro rfl i
    exact ⟨Nat.le_refl _, s.digit_le_maxDigit msg i⟩

end Signature

/-- Of two different hashes each has a digit that is less than the other's. So a
signature of one hash does not yield all the chain values that sign the other. -/
theorem digits_incomparable (mode : Mode) {hash other : Octets mode.n} (different : hash ≠ other) :
    (∃ i, mode.parameters.digit hash i < mode.parameters.digit other i) ∧
      (∃ i, mode.parameters.digit other i < mode.parameters.digit hash i) ∧
      ∀ (s : Signature mode) (id : Identifier) (q : UInt32) (msg : Bytes),
        mode.hash.apply (.message id q s.c msg) = hash →
          ¬ ∀ i, ∃ value, s.Yields id q msg i (mode.parameters.digit other i).toNat value := by
  refine ⟨mode.parameters.exists_digit_lt different.symm, mode.parameters.exists_digit_lt different, ?_⟩
  rintro s id q msg rfl all
  exact different (Signature.yields_all_iff.1 all).symm

theorem digits_incomparable_flat :
    let other : Octets 32 := ⟨List.replicate 32 1, rfl⟩
    let s : Signature flatMode := ⟨Octets.zero 32, List.replicate 34 (Octets.zero 32), rfl⟩
    Octets.zero 32 ≠ other ∧
      (∃ i, flatMode.parameters.digit (Octets.zero 32) i < flatMode.parameters.digit other i) ∧
      flatMode.hash.apply (.message (Octets.zero 16) 7 s.c [1]) = Octets.zero 32 ∧
      ¬ ∀ i, ∃ value,
        s.Yields (Octets.zero 16) 7 [1] i (flatMode.parameters.digit other i).toNat value := by
  intro other s
  have different : Octets.zero 32 ≠ other := by decide
  obtain ⟨less, -, lacks⟩ := digits_incomparable flatMode different
  exact ⟨different, less, rfl, lacks s (Octets.zero 16) 7 [1] rfl⟩

end HashSig.OneTime
