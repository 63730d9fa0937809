import HashSig.Proofs.Chain
import Mathlib.Data.Nat.Digits.Defs
import Mathlib.Data.List.Forall2

/-! No hash has digits that are all at most those of another.

If they were, the digits of the checksum would be so too, and with them the
checksum itself; but it falls when digits of the hash rise. So the digits would be
the same (`ParameterSet.eq_of_expand_le`).
-/

set_option autoImplicit false

namespace HashSig.OneTime

namespace Width

variable (w : Width)

abbrev base : Nat := 2 ^ w.bits

/-- The number that digits stand for, the most significant one first. -/
def number (digits : List UInt8) : Nat := Nat.ofDigits w.base (digits.reverse.map UInt8.toNat)

theorem number_append (front back : List UInt8) :
    w.number (front ++ back) = w.number front * w.base ^ back.length + w.number back := by
  rw [number, List.reverse_append, List.map_append, Nat.ofDigits_append, List.length_map,
    List.length_reverse, Nat.mul_comm, Nat.add_comm]
  rfl

theorem maxDigit_lt_base : w.maxDigit < w.base := Nat.sub_lt (Nat.two_pow_pos _) Nat.one_pos

theorem number_lt {digits : List UInt8} (bound : ∀ d ∈ digits, d.toNat ≤ w.maxDigit) :
    w.number digits < w.base ^ digits.length := by
  have large : 1 < w.base := by cases w <;> decide
  have each : ∀ d ∈ digits.reverse.map UInt8.toNat, d < w.base := by
    intro d member
    obtain ⟨x, inside, rfl⟩ := List.mem_map.1 member
    exact Nat.lt_of_le_of_lt (bound x (List.mem_reverse.1 inside)) w.maxDigit_lt_base
  have small := Nat.ofDigits_lt_base_pow_length large each
  rwa [List.length_map, List.length_reverse] at small

-- The first digits stand for the number without the places of the others.
theorem number_take {digits : List UInt8} (bound : ∀ d ∈ digits, d.toNat ≤ w.maxDigit) (k : Nat) :
    w.number (digits.take k) = w.number digits / w.base ^ (digits.length - k) := by
  have rest := w.number_lt fun d member => bound d (List.mem_of_mem_drop (i := k) member)
  have whole := w.number_append (digits.take k) (digits.drop k)
  rw [List.length_drop] at rest whole
  rw [List.take_append_drop] at whole
  rw [whole, Nat.mul_comm, Nat.mul_add_div (Nat.pos_of_neZero _), Nat.div_eq_of_lt rest, Nat.add_zero]

theorem number_mono {digits others : List UInt8} (below : List.Forall₂ (· ≤ ·) digits others) :
    w.number digits ≤ w.number others := by
  have reversed := List.forall₂_reverse_iff.2 below
  unfold number
  generalize digits.reverse = digits, others.reverse = others at reversed
  induction reversed with
  | nil => exact Nat.le_refl _
  | cons head _ ih =>
    rw [List.map_cons, List.map_cons, Nat.ofDigits_cons, Nat.ofDigits_cons]
    exact Nat.add_le_add (UInt8.le_iff_toNat_le.1 head) (Nat.mul_le_mul_left _ ih)

theorem toNat_and_mask (x : UInt8) : (x &&& w.mask).toNat = x.toNat % w.base := by
  rw [UInt8.toNat_and, w.toNat_mask]
  exact Nat.and_two_pow_sub_one_eq_mod _ _

theorem bits_pos : 0 < w.bits := by cases w <;> decide

-- The first digits of a byte stand for its top bits.
theorem number_range_digits (b : UInt8) {k : Nat} (fits : w.bits * k ≤ 8) :
    w.number ((List.range k).map fun i => (b >>> UInt8.ofNat (8 - w.bits * (i + 1))) &&& w.mask) =
      b.toNat / 2 ^ (8 - w.bits * k) := by
  induction k with
  | zero => exact (Nat.div_eq_of_lt b.toNat_lt).symm
  | succ k ih =>
    have less : w.bits * k + w.bits ≤ 8 := by rwa [← Nat.mul_succ]
    have positive := w.bits_pos
    have shift : (UInt8.ofNat (8 - w.bits * (k + 1))).toNat % 8 = 8 - w.bits * (k + 1) := by
      rw [Nat.mul_succ, UInt8.toNat_ofNat']
      omega
    have above : 8 - w.bits * k = 8 - w.bits * (k + 1) + w.bits := by
      rw [Nat.mul_succ]
      omega
    have digit : w.number [(b >>> UInt8.ofNat (8 - w.bits * (k + 1))) &&& w.mask] =
        b.toNat / 2 ^ (8 - w.bits * (k + 1)) % w.base := by
      rw [number, List.reverse_singleton, List.map_singleton, Nat.ofDigits_singleton, toNat_and_mask,
        UInt8.toNat_shiftRight, shift, Nat.shiftRight_eq_div_pow]
    -- One digit more is one division less.
    rw [List.range_succ, List.map_append, number_append, ih (by omega), List.map_singleton, digit,
      above, Nat.pow_add, ← Nat.div_div_eq_div_mul, List.length_singleton, Nat.pow_one]
    exact Nat.div_add_mod' _ _

theorem number_digitsOfByte (b : UInt8) : w.number (w.digitsOfByte b) = b.toNat := by
  have whole : w.bits * w.perByte = 8 := by cases w <;> rfl
  rw [digitsOfByte, number_range_digits w b (Nat.le_of_eq whole), whole, Nat.sub_self, Nat.pow_zero,
    Nat.div_one]

theorem digitsOfByte_injective {b c : UInt8} (same : w.digitsOfByte b = w.digitsOfByte c) : b = c := by
  apply UInt8.toNat_inj.1
  rw [← w.number_digitsOfByte, same, number_digitsOfByte]

theorem digits_injective {b c : Bytes} (same : w.digits b = w.digits c) : b = c := by
  have positive : 0 < w.perByte := by cases w <;> decide
  induction b generalizing c with
  | nil =>
    have lengths := congrArg List.length same
    rw [length_digits, length_digits, List.length_nil, Nat.zero_mul] at lengths
    have none := (Nat.mul_eq_zero.1 lengths.symm).resolve_right (Nat.ne_of_gt positive)
    exact (List.eq_nil_of_length_eq_zero none).symm
  | cons x b ih =>
    cases c with
    | nil =>
      have lengths := congrArg List.length same
      rw [length_digits, length_digits, List.length_cons, Nat.succ_mul, List.length_nil] at lengths
      omega
    | cons y c =>
      have lengths : (w.digitsOfByte x).length = (w.digitsOfByte y).length := by
        rw [length_digitsOfByte, length_digitsOfByte]
      obtain ⟨first, rest⟩ := List.append_inj same lengths
      rw [w.digitsOfByte_injective first, ih rest]

theorem digits_append (front back : Bytes) :
    w.digits (front ++ back) = w.digits front ++ w.digits back := by
  simp [digits]

theorem base_pow_perByte : w.base ^ w.perByte = 256 := by
  cases w <;> rfl

-- The digits of a word's two bytes stand for the word.
theorem number_digits_ofUInt16 (x : UInt16) : w.number (w.digits (Bytes.ofUInt16 x)) = x.toNat := by
  have bound := x.toNat_lt
  have parts : w.digits (Bytes.ofUInt16 x) =
      w.digitsOfByte (x >>> 8).toUInt8 ++ w.digitsOfByte x.toUInt8 := by
    rw [digits, Bytes.ofUInt16, List.flatMap_cons, List.flatMap_singleton]
  rw [parts, number_append, number_digitsOfByte, number_digitsOfByte, length_digitsOfByte,
    base_pow_perByte, UInt16.toNat_toUInt8, UInt16.toNat_toUInt8, UInt16.toNat_shiftRight, Nat.shiftRight_eq_div_pow]
  change x.toNat / 256 % 256 * 256 + x.toNat % 256 = x.toNat
  omega

def shortfall (digits : List UInt8) : Nat := (digits.map fun d => w.maxDigit - d.toNat).sum

theorem shortfall_cons (d : UInt8) (digits : List UInt8) :
    w.shortfall (d :: digits) = (w.maxDigit - d.toNat) + w.shortfall digits := List.sum_cons

theorem shortfall_le (digits : List UInt8) : w.shortfall digits ≤ digits.length * w.maxDigit := by
  induction digits with
  | nil => exact Nat.zero_le _
  | cons d digits ih =>
    rw [shortfall_cons, List.length_cons, Nat.succ_mul]
    omega

-- It falls when digits rise, and stays the same only with them.
theorem shortfall_antitone {digits others : List UInt8}
    (below : List.Forall₂ (· ≤ ·) digits others) (bound : ∀ d ∈ others, d.toNat ≤ w.maxDigit) :
    w.shortfall others ≤ w.shortfall digits ∧
      (w.shortfall digits ≤ w.shortfall others → digits = others) := by
  induction below with
  | nil => exact ⟨Nat.le_refl _, fun _ => rfl⟩
  | @cons d e digits others head _ ih =>
    obtain ⟨least, same⟩ := ih fun d member => bound d (List.mem_cons_of_mem _ member)
    have first := UInt8.le_iff_toNat_le.1 head
    have small := bound e List.mem_cons_self
    rw [shortfall_cons, shortfall_cons]
    refine ⟨by omega, fun more => ?_⟩
    have equal : d = e := UInt8.toNat_inj.1 (by omega)
    rw [equal, same (by omega)]

theorem toNat_sum_shortfall {digits : List UInt8} (bound : ∀ d ∈ digits, d.toNat ≤ w.maxDigit)
    (small : digits.length * w.maxDigit < 2 ^ 16) :
    UInt16.toNat ((digits.map fun d => UInt16.ofNat w.maxDigit - d.toUInt16).foldr (· + ·) 0) =
      w.shortfall digits := by
  have greatest : (UInt16.ofNat w.maxDigit).toNat = w.maxDigit := by cases w <;> rfl
  induction digits with
  | nil => rfl
  | cons d digits ih =>
    have least := bound d List.mem_cons_self
    have total := w.shortfall_le digits
    rw [List.length_cons, Nat.succ_mul] at small
    have term : (UInt16.ofNat w.maxDigit - d.toUInt16).toNat = w.maxDigit - d.toNat := by
      rw [UInt16.toNat_sub_of_le _ _ ?_, greatest, UInt8.toNat_toUInt16]
      rw [UInt16.le_iff_toNat_le, greatest, UInt8.toNat_toUInt16]
      exact least
    rw [List.map_cons, List.foldr_cons, UInt16.toNat_add, term,
      ih (fun d member => bound d (List.mem_cons_of_mem _ member)) (by omega), shortfall_cons]
    exact Nat.mod_eq_of_lt (by omega)

end Width

namespace ParameterSet

variable (s : ParameterSet)

-- The checksum of any hash can be shifted without loss.
theorem checksum_fits : s.hashDigits * s.width.maxDigit * 2 ^ s.checksumShift < 2 ^ 16 := by
  rcases s with ⟨_ | _, _ | _ | _ | _⟩ <;> decide

theorem toNat_checksum {digits : List UInt8} (number : digits.length = s.hashDigits)
    (bound : ∀ d ∈ digits, d.toNat ≤ s.width.maxDigit) :
    (s.checksum digits).toNat = s.width.shortfall digits * 2 ^ s.checksumShift := by
  have shift : (UInt16.ofNat s.checksumShift).toNat % 16 = s.checksumShift := by
    rcases s with ⟨_ | _, _ | _ | _ | _⟩ <;> rfl
  have fits := s.checksum_fits
  have total := Nat.mul_le_mul_right (2 ^ s.checksumShift) (s.width.shortfall_le digits)
  have positive := Nat.two_pow_pos s.checksumShift
  rw [number] at total
  have small : digits.length * s.width.maxDigit < 2 ^ 16 := by
    rw [number]
    exact Nat.lt_of_le_of_lt (Nat.le_mul_of_pos_right _ positive) fits
  rw [checksum, UInt16.toNat_shiftLeft, s.width.toNat_sum_shortfall bound small, shift,
    Nat.shiftLeft_eq, Nat.mod_eq_of_lt (Nat.lt_of_le_of_lt total fits)]

theorem number_checksum {digits : List UInt8} (number : digits.length = s.hashDigits)
    (bound : ∀ d ∈ digits, d.toNat ≤ s.width.maxDigit) :
    s.width.number ((s.width.digits (Bytes.ofUInt16 (s.checksum digits))).take s.checksumDigits) =
      s.width.shortfall digits := by
  have places : s.width.base ^ (2 * s.width.perByte - s.checksumDigits) = 2 ^ s.checksumShift := by
    rcases s with ⟨_ | _, _ | _ | _ | _⟩ <;> rfl
  rw [Width.number_take _ fun d => Width.le_maxDigit_of_mem_digits _, Width.length_digits,
    Bytes.length_ofUInt16, places, Width.number_digits_ofUInt16, s.toNat_checksum number bound]
  exact Nat.mul_div_cancel _ (Nat.two_pow_pos _)

theorem length_digits_hash (hash : Octets s.size.octets) :
    (s.width.digits hash.bytes).length = s.hashDigits := by
  rw [Width.length_digits, hash.length_eq]
  rcases s with ⟨_ | _, _ | _ | _ | _⟩ <;> rfl

-- The digits of a hash fill their places, so none is cut off before the checksum's.
theorem expand_eq_append (hash : Octets s.size.octets) :
    s.expand hash = s.width.digits hash.bytes ++
      (s.width.digits (Bytes.ofUInt16 (s.checksum (s.width.digits hash.bytes)))).take s.checksumDigits := by
  simp only [expand, List.take_of_length_le (Nat.le_of_eq (s.length_digits_hash hash))]

theorem eq_of_expand_le {hash other : Octets s.size.octets}
    (below : List.Forall₂ (· ≤ ·) (s.expand hash) (s.expand other)) : hash = other := by
  have number (h : Octets s.size.octets) := s.length_digits_hash h
  have bound (h : Octets s.size.octets) : ∀ d ∈ s.width.digits h.bytes, d.toNat ≤ s.width.maxDigit :=
    fun d => Width.le_maxDigit_of_mem_digits _
  have front := List.forall₂_take s.hashDigits below
  have back := List.forall₂_drop s.hashDigits below
  rw [expand_eq_append, expand_eq_append, List.take_left' (number _), List.take_left' (number _)] at front
  rw [expand_eq_append, expand_eq_append, List.drop_left' (number _), List.drop_left' (number _)] at back
  -- The checksum would not fall, although the digits of the hash do not fall either.
  have sums := s.width.number_mono back
  rw [s.number_checksum (number _) (bound _), s.number_checksum (number _) (bound _)] at sums
  have same := (s.width.shortfall_antitone front (bound _)).2 sums
  exact Octets.ext (s.width.digits_injective same)

/-- Of two different hashes each has a digit that is greater than the other's. -/
theorem exists_expand_lt {hash other : Octets s.size.octets} (different : hash ≠ other) :
    ∃ (i : Nat) (inHash : i < (s.expand hash).length) (inOther : i < (s.expand other).length),
      (s.expand other)[i] < (s.expand hash)[i] := by
  by_contra none
  push Not at none
  refine different (s.eq_of_expand_le (List.forall₂_iff_get.2 ⟨?_, ?_⟩))
  · rw [length_expand, length_expand]
  · intro i inHash inOther
    exact UInt8.not_lt.1 fun less => absurd less (none i inHash inOther)

end ParameterSet

end HashSig.OneTime
