import HashSig.Proofs.Conformance
import Mathlib.Data.List.Induction

/-! The digits of a hash as numbers.

A string is a number in base 256, and its digits are those of the same number in the
base of their width (`number_digits`). So the front of an expanded hash is the hash, and
the back is how far its digits fall short (`number_drop_expand`): nothing is lost in two
bytes, to a shift or to a digit that is left out. Each digit is the standard's
coefficient in its place (`map_toNat_expand`).
-/

set_option autoImplicit false

namespace HashSig

/-- The number that a string stands for, the most significant byte first. -/
def Bytes.bigEndian (b : Bytes) : Nat := b.foldl (fun value byte => 256 * value + byte.toNat) 0

theorem Bytes.bigEndian_append_singleton (b : Bytes) (x : UInt8) :
    (b ++ [x]).bigEndian = 256 * b.bigEndian + x.toNat := by
  simp [bigEndian]

namespace OneTime

namespace Width

variable (w : Width)

theorem digits_singleton (x : UInt8) : w.digits [x] = w.digitsOfByte x := by
  simp [digits]

theorem number_digits (b : Bytes) : w.number (w.digits b) = b.bigEndian := by
  induction b using List.reverseRec with
  | nil => rfl
  | append_singleton b x ih =>
    rw [digits_append, digits_singleton, number_append, ih, length_digitsOfByte, base_pow_perByte,
      number_digitsOfByte, Bytes.bigEndian_append_singleton, Nat.mul_comm]

end Width

namespace ParameterSet

variable (s : ParameterSet) (hash : Octets s.size.octets)

/-- How far the standard's coefficients of a hash fall short of the greatest ones. -/
def missing : Nat :=
  ((List.range s.hashDigits).map fun i =>
    2 ^ s.width.bits - 1 - Standard.coef hash.bytes i s.width.bits).sum

theorem shortfall_digits : s.width.shortfall (s.width.digits hash.bytes) = s.missing hash := by
  have length := s.length_digits_hash hash
  unfold Width.shortfall missing
  congr 1
  refine List.ext_getElem (by simp [length]) fun i inside _ => ?_
  rw [List.length_map] at inside
  simp only [List.getElem_map, List.getElem_range, s.width.toNat_getElem_digits]
  rfl

theorem checksum_row : Standard.checksum s.row hash.bytes = s.missing hash <<< s.checksumShift := by
  rw [s.checksum_eq_shortfall, shortfall_digits, Nat.shiftLeft_eq]

theorem take_expand : (s.expand hash).take s.hashDigits = s.width.digits hash.bytes := by
  rw [expand_eq_append, List.take_left' (s.length_digits_hash hash)]

theorem map_toNat_expand : (s.expand hash).map UInt8.toNat = (List.range s.chains).map fun i =>
    Standard.coef (hash.bytes ++ Standard.u16str (s.missing hash <<< s.checksumShift)) i s.width.bits := by
  rw [← checksum_row]
  refine List.ext_getElem (by simp) fun i inside _ => ?_
  rw [List.length_map] at inside
  simp only [List.getElem_map, List.getElem_range]
  exact s.toNat_getElem_expand hash inside

theorem number_drop_expand : s.width.number ((s.expand hash).drop s.hashDigits) = s.missing hash := by
  rw [expand_eq_append, List.drop_left' (s.length_digits_hash hash),
    s.number_checksum (s.length_digits_hash hash) fun d => s.width.le_maxDigit_of_mem_digits,
    shortfall_digits]

theorem toNat_checksum_expand :
    (s.checksum ((s.expand hash).take s.hashDigits)).toNat = s.missing hash <<< s.checksumShift := by
  rw [take_expand, s.toNat_checksum (s.length_digits_hash hash) fun d => s.width.le_maxDigit_of_mem_digits,
    shortfall_digits, Nat.shiftLeft_eq]

/-- The digits are the standard's coefficients of the hash followed by its checksum. The
first of them are the hash as a number, the others the checksum before it is shifted,
and the shifted checksum is exact in two bytes. -/
structure Spells (digits : List UInt8) : Prop where
  length : digits.length = s.chains
  le_max : ∀ d ∈ digits, d.toNat ≤ 2 ^ s.width.bits - 1
  coefficients : digits.map UInt8.toNat = (List.range s.chains).map fun i =>
    Standard.coef (hash.bytes ++ Standard.u16str (s.missing hash <<< s.checksumShift)) i s.width.bits
  number_front : s.width.number (digits.take s.hashDigits) = hash.bytes.bigEndian
  number_back : s.width.number (digits.drop s.hashDigits) = s.missing hash
  length_back : (digits.drop s.hashDigits).length = s.checksumDigits
  checksum : (s.checksum (digits.take s.hashDigits)).toNat = s.missing hash <<< s.checksumShift

/-- Every hash is spelled by the digits it expands to. The digits of the hash fill its
bits, the checksum is the standard's, and lengths and shift are those of its table. -/
theorem expand_spells :
    s.Spells hash (s.expand hash) ∧ s.hashDigits * s.width.bits = 8 * s.size.octets ∧
      s.missing hash <<< s.checksumShift = Standard.checksum s.row hash.bytes ∧
      Standard.oneTimeRow? s.typecode.toNat =
        some ⟨s.size.octets, s.width.bits, s.chains, s.checksumShift⟩ := by
  have front := congrArg s.width.number (s.take_expand hash)
  rw [Width.number_digits] at front
  have spells : s.Spells hash (s.expand hash) := {
    length := s.length_expand hash
    le_max := fun d => s.le_maxDigit_of_mem_expand
    coefficients := s.map_toNat_expand hash
    number_front := front
    number_back := s.number_drop_expand hash
    length_back := by simp [chains]
    checksum := s.toNat_checksum_expand hash }
  exact ⟨spells, s.hashDigits_mul_bits, (s.checksum_row hash).symm,
    Standard.oneTimeRow?_eq_some_iff.2 ⟨s, rfl, rfl⟩⟩

theorem expand_spells_stripes :
    let s : ParameterSet := ⟨.n32, .w4⟩
    let hash : Octets s.size.octets := ⟨List.replicate 32 0xaa, rfl⟩
    10 ∈ s.expand hash ∧ (10 : UInt8).toNat ≤ 2 ^ 4 - 1 ∧
      (s.expand hash).drop s.hashDigits = [1, 4, 0] ∧
      s.width.number [1, 4, 0] = s.missing hash := by
  intro s hash
  obtain ⟨spells, -⟩ := expand_spells s hash
  have member : 10 ∈ s.expand hash := by decide
  have back : (s.expand hash).drop s.hashDigits = [1, 4, 0] := by decide +kernel
  exact ⟨member, spells.le_max 10 member, back, back ▸ spells.number_back⟩

end ParameterSet

end OneTime

end HashSig
