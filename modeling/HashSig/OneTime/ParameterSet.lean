import HashSig.Error
import HashSig.HashFunction

/-! The parameter sets of one-time signatures.

A set is a hash size and a digit width. A message hash and its checksum are read
as digits of that width, each digit is signed by one hash chain, and all lengths
follow. Each set has a typecode, by which keys and signatures name it.
-/

set_option autoImplicit false

namespace HashSig.OneTime

inductive Width where
  | w1
  | w2
  | w4
  | w8
  deriving DecidableEq, Repr

def Width.bits : Width → Nat
  | .w1 => 1
  | .w2 => 2
  | .w4 => 4
  | .w8 => 8

/-- The greatest digit, which is also the number of steps in a whole chain. -/
def Width.maxDigit (w : Width) : Nat := Nat.pow 2 w.bits - 1

structure ParameterSet where
  size : HashSize
  width : Width
  deriving DecidableEq, Repr

namespace ParameterSet

def hashDigits (s : ParameterSet) : Nat :=
  (8 * s.size.octets + s.width.bits - 1) / s.width.bits

def checksumDigits (s : ParameterSet) : Nat :=
  Nat.log2 (s.width.maxDigit * s.hashDigits) / s.width.bits + 1

def chains (s : ParameterSet) : Nat := s.hashDigits + s.checksumDigits

/-- The shift that moves the checksum's digits to the top of two bytes. -/
def checksumShift (s : ParameterSet) : Nat := 16 - s.checksumDigits * s.width.bits

def signatureLength (s : ParameterSet) : Nat := 4 + s.size.octets * (s.chains + 1)

def typecode : ParameterSet → UInt32
  | ⟨.n32, .w1⟩ => 1
  | ⟨.n32, .w2⟩ => 2
  | ⟨.n32, .w4⟩ => 3
  | ⟨.n32, .w8⟩ => 4
  | ⟨.n24, .w1⟩ => 5
  | ⟨.n24, .w2⟩ => 6
  | ⟨.n24, .w4⟩ => 7
  | ⟨.n24, .w8⟩ => 8

def name (s : ParameterSet) : String :=
  "LmsOtsSha256N" ++ s.size.octets.repr ++ "W" ++ s.width.bits.repr

def all : List ParameterSet :=
  [⟨.n32, .w1⟩, ⟨.n32, .w2⟩, ⟨.n32, .w4⟩, ⟨.n32, .w8⟩,
    ⟨.n24, .w1⟩, ⟨.n24, .w2⟩, ⟨.n24, .w4⟩, ⟨.n24, .w8⟩]

def lookup (typecode : UInt32) : Except Error ParameterSet :=
  match all.find? (fun s => s.typecode == typecode) with
  | some s => .ok s
  | none => .error (.unsupportedParameter typecode)

theorem mem_all (s : ParameterSet) : s ∈ all := by
  rcases s with ⟨_ | _, _ | _ | _ | _⟩ <;> decide

theorem lookup_typecode (s : ParameterSet) : lookup s.typecode = .ok s := by
  rcases s with ⟨_ | _, _ | _ | _ | _⟩ <;> rfl

theorem typecode_injective {s t : ParameterSet} (same : s.typecode = t.typecode) : s = t := by
  have found := lookup_typecode s
  rw [same, lookup_typecode] at found
  exact (Except.ok.inj found).symm

-- Digits fill the bytes of a hash exactly.
theorem hashDigits_mul_bits (s : ParameterSet) : s.hashDigits * s.width.bits = 8 * s.size.octets := by
  rcases s with ⟨_ | _, _ | _ | _ | _⟩ <;> rfl

end ParameterSet

end HashSig.OneTime
