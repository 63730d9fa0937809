import HashSig.OneTime.ParameterSet

/-! A message hash as digits.

The digits of the hash are followed by those of a checksum that falls as they
rise, so no hash has digits that are all at least those of another.
-/

set_option autoImplicit false

namespace HashSig.OneTime

namespace Width

def perByte (w : Width) : Nat := 8 / w.bits

def mask (w : Width) : UInt8 := UInt8.ofNat w.maxDigit

/-- The digits of a byte, the most significant first. -/
def digitsOfByte (w : Width) (b : UInt8) : List UInt8 :=
  (List.range w.perByte).map fun i => (b >>> UInt8.ofNat (8 - w.bits * (i + 1))) &&& w.mask

def digits (w : Width) (b : Bytes) : List UInt8 := b.flatMap w.digitsOfByte

@[simp] theorem length_digitsOfByte (w : Width) (b : UInt8) :
    (w.digitsOfByte b).length = w.perByte := by
  simp [digitsOfByte]

@[simp] theorem length_digits (w : Width) (b : Bytes) :
    (w.digits b).length = b.length * w.perByte := by
  induction b with
  | nil => simp [digits]
  | cons x b ih =>
    rw [show w.digits (x :: b) = w.digitsOfByte x ++ w.digits b from rfl, List.length_append, ih,
      length_digitsOfByte, List.length_cons, Nat.succ_mul, Nat.add_comm]

end Width

namespace ParameterSet

/-- How far the digits fall short of the greatest ones in all, shifted to the top
of two bytes. -/
def checksum (s : ParameterSet) (digits : List UInt8) : UInt16 :=
  (digits.map fun d => UInt16.ofNat s.width.maxDigit - d.toUInt16).foldr (· + ·) 0 <<<
    UInt16.ofNat s.checksumShift

/-- The digits of a hash and of its checksum, one for each chain. -/
def expand (s : ParameterSet) (hash : Octets s.size.octets) : List UInt8 :=
  let front := (s.width.digits hash.bytes).take s.hashDigits
  front ++ (s.width.digits (Bytes.ofUInt16 (s.checksum front))).take s.checksumDigits

@[simp] theorem length_expand (s : ParameterSet) (hash : Octets s.size.octets) :
    (s.expand hash).length = s.chains := by
  simp only [expand, List.length_append, List.length_take, Width.length_digits, Octets.length_eq,
    Bytes.length_ofUInt16]
  rcases s with ⟨_ | _, _ | _ | _ | _⟩ <;> rfl

end ParameterSet

end HashSig.OneTime
