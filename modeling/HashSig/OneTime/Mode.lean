import HashSig.HashInput
import HashSig.OneTime.Coefficients

/-! Modes of one-time signing.

A mode is a parameter set in use: any hash function of the set's size, a digit
width, and the typecode that keys and signatures of the mode carry. Keys and
signatures of different modes have different types.
-/

set_option autoImplicit false

namespace HashSig.OneTime

structure Mode where
  typecode : UInt32
  hash : HashFunction
  width : Width

/-- A registered set with its own typecode and with as much of `H` as it uses. -/
def ParameterSet.modeWith (s : ParameterSet) (H : Digest) : Mode :=
  ⟨s.typecode, HashFunction.ofDigest H s.size, s.width⟩

abbrev ParameterSet.mode (s : ParameterSet) : Mode := s.modeWith Sha256.digest

namespace Mode

abbrev n (mode : Mode) : Nat := mode.hash.size.octets

abbrev parameters (mode : Mode) : ParameterSet := ⟨mode.hash.size, mode.width⟩

abbrev chains (mode : Mode) : Nat := mode.parameters.chains

abbrev signatureLength (mode : Mode) : Nat := mode.parameters.signatureLength

abbrev publicKeyLength (mode : Mode) : Nat := 24 + mode.n

def expectTypecode (mode : Mode) (got : UInt32) : Except Error Unit :=
  match ParameterSet.lookup got with
  | .error e => .error e
  | .ok _ => if got = mode.typecode then .ok () else .error (.wrongAlgorithm mode.typecode got)

end Mode

end HashSig.OneTime
