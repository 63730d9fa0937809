import HashSig.Proofs.Checksum
import HashSig.Proofs.Guarded

/-! Hashing with guarded operations.

The sizes of the parameter sets, the digits of a message with their checksum, the
walks along the chains and the public key that a one-time signature recovers are
computed here with operations that are refused when they go out of range. None is
ever refused, and the results are those of the definitions in exact arithmetic.
-/

set_option autoImplicit false

namespace HashSig

open Guarded

def digestGuarded (H : Digest) (size : HashSize) (message : Bytes) : Guarded (Octets size.octets) :=
  match size with
  | .n32 => .ok (H message)
  | .n24 => do
    let front ← slice (H message).bytes 0 24
    if filled : front.length = 24 then return ⟨front, filled⟩ else throw .slice

theorem digestGuarded_eq (H : Digest) (size : HashSize) (message : Bytes) :
    digestGuarded H size message = .ok ((HashFunction.ofDigest H size).digest message) := by
  cases size with
  | n32 => rfl
  | n24 =>
    have inside : 24 ≤ (H message).bytes.length := by
      rw [Octets.length_eq]
      decide
    have filled : (((H message).bytes.drop 0).take (24 - 0)).length = 24 := by
      rw [List.length_take, List.drop_zero]
      omega
    rw [digestGuarded, slice_eq (Nat.zero_le 24) inside, ok_bind, dif_pos filled]
    rfl

namespace OneTime

namespace Width

variable (w : Width)

def maxDigitGuarded (bits : Nat) : Guarded Nat := do
  let base ← shiftLeft bits 1 w.bits
  sub base 1

def digitGuarded (mask : Nat) (byte : UInt8) (i : Nat) : Guarded UInt8 := do
  let place ← mul lengthBits w.bits (← add lengthBits i 1)
  let shift ← sub 8 place
  let shifted ← shiftRight 8 byte.toNat shift
  return UInt8.ofNat shifted &&& UInt8.ofNat mask

/-- The digits of a string. All of them are computed, also those that no one takes. -/
def digitsGuarded (b : Bytes) : Guarded (List UInt8) := do
  assert (w.bits = 1 ∨ w.bits = 2 ∨ w.bits = 4 ∨ w.bits = 8)
  let mask ← cast 8 (← w.maxDigitGuarded 16)
  let perByte ← div 8 w.bits
  let digits ← b.mapM fun byte => (List.range perByte).mapM (w.digitGuarded mask byte)
  return digits.flatten

theorem maxDigitGuarded_eq {bits : Nat} (inWord : 8 < bits) :
    w.maxDigitGuarded bits = .ok w.maxDigit := by
  have places : w.bits ≤ 8 := by cases w <;> decide
  have fits : 1 * 2 ^ w.bits < 2 ^ bits := by
    rw [Nat.one_mul]
    exact Nat.pow_lt_pow_right Nat.one_lt_two (by omega)
  rw [maxDigitGuarded, shiftLeft_eq (by omega) fits, Nat.one_mul, ok_bind]
  exact sub_eq (Nat.two_pow_pos _)

theorem digitGuarded_eq (byte : UInt8) {i : Nat} (inByte : i < w.perByte) :
    w.digitGuarded w.maxDigit byte i =
      .ok ((byte >>> UInt8.ofNat (8 - w.bits * (i + 1))) &&& w.mask) := by
  have whole : w.bits * w.perByte = 8 := by cases w <;> rfl
  have place : w.bits * (i + 1) ≤ 8 := whole ▸ Nat.mul_le_mul_left _ inByte
  have positive : 0 < w.bits := by cases w <;> decide
  have next : i + 1 ≤ w.bits * (i + 1) := Nat.le_mul_of_pos_left _ positive
  have places : 8 - w.bits * (i + 1) < 8 := by omega
  have shifted : UInt8.ofNat (byte.toNat / 2 ^ (8 - w.bits * (i + 1))) =
      byte >>> UInt8.ofNat (8 - w.bits * (i + 1)) := by
    apply UInt8.toNat_inj.1
    have bound := Nat.lt_of_le_of_lt (Nat.div_le_self _ (2 ^ (8 - w.bits * (i + 1)))) byte.toNat_lt
    rw [UInt8.toNat_ofNat', UInt8.toNat_shiftRight, UInt8.toNat_ofNat', Nat.shiftRight_eq_div_pow,
      Nat.mod_eq_of_lt bound, Nat.mod_eq_of_lt (b := 2 ^ 8) (by omega), Nat.mod_eq_of_lt places]
  have room : 8 < 2 ^ lengthBits := by decide
  simp only [digitGuarded, add_eq (show i + 1 < 2 ^ lengthBits by omega), ok_bind,
    mul_eq (show w.bits * (i + 1) < 2 ^ lengthBits by omega), sub_eq place, shiftRight_eq places, shifted]
  rfl

theorem digitsGuarded_eq (b : Bytes) : w.digitsGuarded b = .ok (w.digits b) := by
  have registered : w.bits = 1 ∨ w.bits = 2 ∨ w.bits = 4 ∨ w.bits = 8 := by cases w <;> decide
  have small : w.maxDigit < 2 ^ 8 := by cases w <;> decide
  have quotient : div 8 w.bits = .ok w.perByte := by cases w <;> rfl
  have byteDigits (byte : UInt8) : (List.range w.perByte).mapM (w.digitGuarded w.maxDigit byte) =
      .ok (w.digitsOfByte byte) :=
    mapM_eq fun i member => w.digitGuarded_eq byte (List.mem_range.1 member)
  rw [digitsGuarded, assert_eq registered, ok_bind, w.maxDigitGuarded_eq (by decide), ok_bind,
    cast_eq small, ok_bind, quotient, ok_bind, mapM_eq fun byte _ => byteDigits byte, ok_bind,
    ← List.flatMap_def]
  rfl

end Width

namespace ParameterSet

variable (s : ParameterSet)

def hashDigitsGuarded : Guarded Nat := do
  divUp (← mul lengthBits 8 s.size.octets) s.width.bits

def checksumDigitsGuarded : Guarded Nat := do
  let greatest ← mul lengthBits (← s.width.maxDigitGuarded lengthBits) (← s.hashDigitsGuarded)
  add lengthBits (← div (← log2 greatest) s.width.bits) 1

def chainsGuarded : Guarded Nat := do
  add lengthBits (← s.hashDigitsGuarded) (← s.checksumDigitsGuarded)

def checksumShiftGuarded : Guarded Nat := do
  sub 16 (← mul lengthBits (← s.checksumDigitsGuarded) s.width.bits)

def signatureLengthGuarded : Guarded Nat := do
  add lengthBits 4 (← mul lengthBits s.size.octets (← add lengthBits (← s.chainsGuarded) 1))

def checksumGuarded (digits : List UInt8) : Guarded Nat := do
  let greatest ← s.width.maxDigitGuarded 16
  let terms ← digits.mapM fun d => sub greatest d.toNat
  let sum ← terms.foldlM (add 16) 0
  shiftLeft 16 sum (← s.checksumShiftGuarded)

def expandGuarded (hash : Octets s.size.octets) : Guarded (List UInt8) := do
  let front := (← s.width.digitsGuarded hash.bytes).take (← s.hashDigitsGuarded)
  let checksum ← s.checksumGuarded front
  let back ← s.width.digitsGuarded (Bytes.ofUInt16 (UInt16.ofNat checksum))
  return front ++ back.take (← s.checksumDigitsGuarded)

theorem hashDigitsGuarded_eq : s.hashDigitsGuarded = .ok s.hashDigits := by
  rcases s with ⟨_ | _, _ | _ | _ | _⟩ <;> rfl

theorem checksumDigitsGuarded_eq : s.checksumDigitsGuarded = .ok s.checksumDigits := by
  rcases s with ⟨_ | _, _ | _ | _ | _⟩ <;> decide

theorem checksumShiftGuarded_eq : s.checksumShiftGuarded = .ok s.checksumShift := by
  rcases s with ⟨_ | _, _ | _ | _ | _⟩ <;> decide

theorem signatureLengthGuarded_eq : s.signatureLengthGuarded = .ok s.signatureLength := by
  rcases s with ⟨_ | _, _ | _ | _ | _⟩ <;> decide

theorem checksumGuarded_eq {digits : List UInt8} (number : digits.length = s.hashDigits)
    (bound : ∀ d ∈ digits, d.toNat ≤ s.width.maxDigit) :
    s.checksumGuarded digits = .ok (s.checksum digits).toNat := by
  have fits := s.checksum_fits
  have total := Nat.mul_le_mul_right (2 ^ s.checksumShift) (s.width.shortfall_le digits)
  have unshifted := Nat.le_mul_of_pos_right (s.width.shortfall digits) (Nat.two_pow_pos s.checksumShift)
  rw [number] at total
  have shift : s.checksumShift < 16 := by rcases s with ⟨_ | _, _ | _ | _ | _⟩ <;> decide
  have terms : digits.mapM (fun d => sub s.width.maxDigit d.toNat) =
      .ok (digits.map fun d => s.width.maxDigit - d.toNat) :=
    mapM_eq fun d member => sub_eq (bound d member)
  have sum : (digits.map fun d => s.width.maxDigit - d.toNat).foldlM (add 16) 0 =
      .ok (s.width.shortfall digits) := by
    rw [foldlM_add_eq, Nat.zero_add]
    · rfl
    · rw [Nat.zero_add]
      exact Nat.lt_of_le_of_lt (Nat.le_trans unshifted total) fits
  rw [checksumGuarded, s.width.maxDigitGuarded_eq (by decide), ok_bind, terms, ok_bind, sum, ok_bind,
    checksumShiftGuarded_eq, ok_bind, shiftLeft_eq shift (Nat.lt_of_le_of_lt total fits),
    s.toNat_checksum number bound]

theorem expandGuarded_eq (hash : Octets s.size.octets) : s.expandGuarded hash = .ok (s.expand hash) := by
  have whole : (s.width.digits hash.bytes).take s.hashDigits = s.width.digits hash.bytes :=
    List.take_of_length_le (Nat.le_of_eq (s.length_digits_hash hash))
  have checksum := s.checksumGuarded_eq (s.length_digits_hash hash)
    fun d => s.width.le_maxDigit_of_mem_digits
  simp only [expandGuarded, expand, Width.digitsGuarded_eq, hashDigitsGuarded_eq, checksumDigitsGuarded_eq,
    ok_bind, whole, checksum, UInt16.ofNat_toNat]
  rfl

end ParameterSet

/-! ## Chains -/

/-- A signature as it was read: the randomizer and whatever chain values there were. -/
structure Parts (n : Nat) where
  c : Octets n
  y : List (Octets n)

variable {mode : Mode}

def Signature.parts (s : Signature mode) : Parts mode.n := ⟨s.c, s.y⟩

def Mode.walkGuarded (mode : Mode) (id : Identifier) (q : UInt32) (i start stop : Nat)
    (value : Octets mode.n) : Guarded (Octets mode.n) := do
  let i ← cast 16 i
  (List.range' start (stop - start)).foldlM (fun value j => do
    let j ← cast 8 j
    return mode.hash.apply (.chainStep id q (UInt16.ofNat i) (UInt8.ofNat j) value)) value

def Mode.recoverGuarded (mode : Mode) (parts : Parts mode.n) (id : Identifier) (q : UInt32) (msg : Bytes) :
    Guarded (PublicKey mode) := do
  let top ← mode.width.maxDigitGuarded lengthBits
  let digits ← mode.parameters.expandGuarded (mode.hash.apply (.message id q parts.c msg))
  let ends ← (digits.zip parts.y).zipIdx.mapM fun ((digit, value), i) =>
    mode.walkGuarded id q i digit.toNat top value
  return ⟨q, id, mode.hash.apply (.publicValue id q ends)⟩

theorem Mode.walkGuarded_eq (mode : Mode) (id : Identifier) (q : UInt32) {i start steps : Nat}
    (chain : i < mode.chains) (bound : start + steps ≤ mode.width.maxDigit) (value : Octets mode.n) :
    mode.walkGuarded id q i start (start + steps) value = .ok (mode.walk id q i start steps value) := by
  have index : i < 2 ^ 16 := Nat.lt_trans chain (Nat.lt_trans mode.parameters.chains_lt (by decide))
  rw [walkGuarded, cast_eq index, ok_bind, Nat.add_sub_cancel_left]
  clear index
  induction steps generalizing start value with
  | zero => rfl
  | succ steps ih =>
    have step : start < 2 ^ 8 := Nat.lt_of_lt_of_le (by omega) mode.width.maxDigit_lt
    rw [List.range'_succ, List.foldlM_cons, cast_eq step]
    exact ih (by omega) _

theorem Signature.recoverGuarded_eq (s : Signature mode) (id : Identifier) (q : UInt32) (msg : Bytes) :
    mode.recoverGuarded s.parts id q msg = .ok (s.recover id q msg) := by
  have ends : ((mode.messageDigits id q s.c msg).zip s.y).zipIdx.mapM (fun ((digit, value), i) =>
      mode.walkGuarded id q i digit.toNat mode.width.maxDigit value) = .ok (s.ends id q msg) := by
    rw [Signature.ends, List.mapIdx_eq_zipIdx_map]
    apply mapM_eq
    rintro ⟨⟨digit, value⟩, i⟩ member
    obtain ⟨inside, same⟩ := List.mem_zipIdx' member
    have chain : i < mode.chains := by
      rw [List.length_zip, s.y_length, Mode.length_messageDigits, Nat.min_self] at inside
      exact inside
    have pair : (digit, value) ∈ (mode.messageDigits id q s.c msg).zip s.y :=
      same.symm ▸ List.getElem_mem inside
    have bound := mode.le_maxDigit_of_mem_messageDigits id q (List.of_mem_zip pair).1
    have whole := Nat.add_sub_cancel' bound
    have walked := mode.walkGuarded_eq id q chain (Nat.le_of_eq whole) value
    rw [whole] at walked
    exact walked
  rw [Mode.recoverGuarded, mode.width.maxDigitGuarded_eq (by decide), ok_bind,
    ParameterSet.expandGuarded_eq, ok_bind, Signature.parts]
  have same : mode.parameters.expand (mode.hash.apply (.message id q s.c msg)) =
    mode.messageDigits id q s.c msg := rfl
  rw [same, ends]
  rfl

end OneTime

end HashSig
