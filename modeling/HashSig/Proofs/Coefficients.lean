import HashSig.Proofs.Checksum
import HashSig.Proofs.Standard

/-! The digits of a hash are the standard's coefficients.

A word's bytes are the string of its number (`u32str_eq`, `u16str_eq`). The digits of a
string are its coefficients in order (`toNat_getElem_digits`), the checksum in two bytes
is the standard's (`u16str_checksum`), and so the digits of a hash and its checksum are
the coefficients of the two strings together (`toNat_getElem_expand`).
-/

set_option autoImplicit false

namespace HashSig

namespace Standard

theorem u16str_eq (x : Nat) : u16str x = Bytes.ofUInt16 (UInt16.ofNat x) := by
  have high : UInt8.ofNat (x / 2 ^ 8) = (UInt16.ofNat x >>> 8).toUInt8 := by
    apply UInt8.toNat_inj.1
    rw [UInt8.toNat_ofNat', UInt16.toNat_toUInt8, UInt16.toNat_shiftRight, UInt16.toNat_ofNat',
      Nat.shiftRight_eq_div_pow]
    change x / 256 % 256 = x % 65536 / 256 % 256
    omega
  have low : UInt8.ofNat x = (UInt16.ofNat x).toUInt8 := by
    apply UInt8.toNat_inj.1
    rw [UInt8.toNat_ofNat', UInt16.toNat_toUInt8, UInt16.toNat_ofNat']
    omega
  rw [u16str, high, low, Bytes.ofUInt16]

theorem u32str_eq (x : Nat) : u32str x = Bytes.ofUInt32 (UInt32.ofNat x) := by
  have high (k : UInt32) (scale : Nat) (places : 2 ^ (k.toNat % 32) = scale)
      (same : x / scale % 2 ^ 8 = x % 2 ^ 32 / scale % 2 ^ 8) :
      UInt8.ofNat (x / scale) = (UInt32.ofNat x >>> k).toUInt8 := by
    apply UInt8.toNat_inj.1
    rw [UInt8.toNat_ofNat', UInt32.toNat_toUInt8, UInt32.toNat_shiftRight, UInt32.toNat_ofNat',
      Nat.shiftRight_eq_div_pow, places, same]
  have low : UInt8.ofNat x = (UInt32.ofNat x).toUInt8 := by
    apply UInt8.toNat_inj.1
    rw [UInt8.toNat_ofNat', UInt32.toNat_toUInt8, UInt32.toNat_ofNat']
    omega
  rw [u32str, high 24 (2 ^ 24) rfl (by omega), high 16 (2 ^ 16) rfl (by omega),
    high 8 (2 ^ 8) rfl (by omega), low, Bytes.ofUInt32]

end Standard

namespace OneTime

namespace Width

variable (w : Width)

theorem perByte_mul_bits : w.perByte * w.bits = 8 := by cases w <;> rfl

theorem toNat_getElem_digitsOfByte (b : UInt8) {i : Nat} (inByte : i < (w.digitsOfByte b).length) :
    ((w.digitsOfByte b)[i]).toNat = w.maxDigit &&& (b.toNat >>> (8 - (w.bits * i + w.bits))) := by
  have positive := w.bits_pos
  have shift : (UInt8.ofNat (8 - w.bits * (i + 1))).toNat % 8 = 8 - (w.bits * i + w.bits) := by
    rw [UInt8.toNat_ofNat', Nat.mul_succ]
    omega
  simp only [digitsOfByte, List.getElem_map, List.getElem_range]
  rw [UInt8.toNat_and, w.toNat_mask, UInt8.toNat_shiftRight, shift, Nat.and_comm]

theorem coef_cons (b : UInt8) (S : Bytes) (i : Nat) :
    Standard.coef (b :: S) (w.perByte + i) w.bits = Standard.coef S i w.bits := by
  have byte : (w.perByte + i) * w.bits / 8 = i * w.bits / 8 + 1 := by
    rw [Nat.add_mul, perByte_mul_bits]
    omega
  rw [Standard.coef, byte, List.getD_cons_succ, ← perByte, Nat.add_mod_left]
  rfl

theorem toNat_getElem_digits (S : Bytes) {i : Nat} (inside : i < (w.digits S).length) :
    ((w.digits S)[i]).toNat = Standard.coef S i w.bits := by
  induction S generalizing i with
  | nil => cases inside
  | cons b S ih =>
    have parts : w.digits (b :: S) = w.digitsOfByte b ++ w.digits S := rfl
    have length := w.length_digitsOfByte b
    have eight := w.perByte_mul_bits
    simp only [parts]
    by_cases first : i < w.perByte
    · have byte : i * w.bits / 8 = 0 := by
        apply Nat.div_eq_of_lt
        rw [← eight]
        exact Nat.mul_lt_mul_of_pos_right first w.bits_pos
      rw [List.getElem_append_left (by omega), toNat_getElem_digitsOfByte, Standard.coef, byte,
        ← perByte, Nat.mod_eq_of_lt first]
      rfl
    · obtain ⟨j, rfl⟩ := Nat.exists_eq_add_of_le (Nat.le_of_not_lt first)
      rw [coef_cons, List.getElem_append_right (by omega)]
      simp only [length, Nat.add_sub_cancel_left]
      exact ih _

end Width

namespace ParameterSet

variable (s : ParameterSet)

def row : Standard.OneTimeRow := ⟨s.size.octets, s.width.bits, s.chains, s.checksumShift⟩

theorem length_digits_eq (hash : Octets s.size.octets) :
    (s.width.digits hash.bytes).length = s.row.n * 8 / s.row.w := by
  rw [s.length_digits_hash]
  rcases s with ⟨_ | _, _ | _ | _ | _⟩ <;> rfl

theorem checksum_eq_shortfall (hash : Octets s.size.octets) :
    Standard.checksum s.row hash.bytes =
      s.width.shortfall (s.width.digits hash.bytes) * 2 ^ s.checksumShift := by
  have terms : (List.range (s.row.n * 8 / s.row.w)).map
      (fun i => 2 ^ s.row.w - 1 - Standard.coef hash.bytes i s.row.w) =
        (s.width.digits hash.bytes).map fun d => s.width.maxDigit - d.toNat := by
    refine List.ext_getElem (by simp [s.length_digits_eq]) fun i _ inside => ?_
    rw [List.length_map] at inside
    simp only [List.getElem_map, List.getElem_range, s.width.toNat_getElem_digits]
    rfl
  rw [Standard.checksum, terms, Nat.shiftLeft_eq]
  rfl

theorem u16str_checksum (hash : Octets s.size.octets) :
    Standard.u16str (Standard.checksum s.row hash.bytes) =
      Bytes.ofUInt16 (s.checksum (s.width.digits hash.bytes)) := by
  have exact := s.toNat_checksum (s.length_digits_hash hash)
    fun d => s.width.le_maxDigit_of_mem_digits
  rw [Standard.u16str_eq, s.checksum_eq_shortfall, ← exact, UInt16.ofNat_toNat]

theorem expand_eq_take (hash : Octets s.size.octets) :
    s.expand hash = (s.width.digits
      (hash.bytes ++ Standard.u16str (Standard.checksum s.row hash.bytes))).take s.chains := by
  have number := s.length_digits_hash hash
  rw [u16str_checksum, Width.digits_append, chains, ← number, List.take_length_add_append, expand_eq_append]

theorem toNat_getElem_expand (hash : Octets s.size.octets) {i : Nat}
    (inside : i < (s.expand hash).length) :
    ((s.expand hash)[i]).toNat = Standard.coef
      (hash.bytes ++ Standard.u16str (Standard.checksum s.row hash.bytes)) i s.row.w := by
  simp only [s.expand_eq_take hash, List.getElem_take]
  exact s.width.toNat_getElem_digits _ _

end ParameterSet

end OneTime

end HashSig
