import HashSig.ManyTime.PublicKey
import HashSig.Event

/-! Verification of byte strings.

The mode is not known beforehand: the two typecodes at the front of the public
key name it. What holds of `verifyWith` for every hash function holds of `verify`, which
hashes with SHA-256.
-/

set_option autoImplicit false

namespace HashSig.ManyTime

def Mode.verifyBytes (mode : Mode) (publicKey msg signature : Bytes) : Except Error Unit := do
  let key ← PublicKey.decode mode publicKey
  let s ← Signature.decode mode signature
  key.check msg s

def readParameterSets (publicKey : Bytes) :
    Except Error (ParameterSet × OneTime.ParameterSet) := do
  let some manyTimeType := publicKey.uint32At? 0 | throw .invalidPublicKey
  let some oneTimeType := publicKey.uint32At? 4 | throw .invalidPublicKey
  let manyTime ← ParameterSet.lookup manyTimeType
  let oneTime ← OneTime.ParameterSet.lookup oneTimeType
  return (manyTime, oneTime)

/-- Verifies a signature in the mode that the public key names, with `H` as the hash
function. Sets with different hash sizes make no mode. -/
def verifyWith (H : Digest) (publicKey msg signature : Bytes) : Logged (Except Error Unit) :=
  match readParameterSets publicKey with
  | .error e => pure (.error e)
  | .ok (manyTime, oneTime) =>
    if manyTime.size = oneTime.size then
      pure ((manyTime.modeWith H oneTime).verifyBytes publicKey msg signature)
    else do
      Logged.emit (.mismatchedParameters manyTime.typecode oneTime.typecode)
      return .error (.incompatibleParameters manyTime.typecode oneTime.typecode)

abbrev verify (publicKey msg signature : Bytes) : Logged (Except Error Unit) :=
  verifyWith Sha256.digest publicKey msg signature

end HashSig.ManyTime
