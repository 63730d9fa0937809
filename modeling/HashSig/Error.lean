import HashSig.Bytes

/-! Why a key or a signature is refused, and in which words. -/

set_option autoImplicit false

namespace HashSig

inductive Error where
  | unsupportedParameter (typecode : UInt32)
  | wrongAlgorithm (expected got : UInt32)
  /-- Two parameter sets with different hash sizes stand together. -/
  | incompatibleParameters (manyTime oneTime : UInt32)
  | keyExhausted
  | invalidPublicKey
  | invalidSignatureLength (expected got : Nat)
  | invalidSignatureEncoding
  | invalidPrivateKeyEncoding
  | invalidSeedLength (expected got : Nat)
  | invalidRandomizerLength (expected got : Nat)
  | oneTimeDerivationFailed
  | verificationFailed
  deriving DecidableEq, Repr

def Bytes.hexByte (b : UInt8) : List Char :=
  [Nat.digitChar (b.toNat / 16), Nat.digitChar (b.toNat % 16)]

def Bytes.hex (b : Bytes) : String := String.ofList (b.flatMap hexByte)

def typecodeText (typecode : UInt32) : String := "0x" ++ (Bytes.ofUInt32 typecode).hex

def lengthsText (expected got : Nat) : String :=
  "expected " ++ expected.repr ++ ", got " ++ got.repr

def Error.message : Error → String
  | .unsupportedParameter typecode => "unsupported parameter set: typecode " ++ typecodeText typecode
  | .wrongAlgorithm expected got =>
    "wrong algorithm: expected typecode " ++ typecodeText expected ++ ", got " ++ typecodeText got
  | .incompatibleParameters manyTime oneTime =>
    "incompatible parameter sets: lms " ++ typecodeText manyTime ++ ", lmots " ++ typecodeText oneTime
  | .keyExhausted => "private key has been exhausted"
  | .invalidPublicKey => "invalid public key"
  | .invalidSignatureLength expected got => "invalid signature length: " ++ lengthsText expected got
  | .invalidSignatureEncoding => "invalid signature encoding"
  | .invalidPrivateKeyEncoding => "invalid private key encoding"
  | .invalidSeedLength expected got => "invalid seed length: " ++ lengthsText expected got
  | .invalidRandomizerLength expected got => "invalid randomizer length: " ++ lengthsText expected got
  | .oneTimeDerivationFailed => "failed to derive LM-OTS key pair"
  | .verificationFailed => "signature verification failed"

/-- A failure as the scheme-independent signing and verifying calls report it:
the cause is withheld. -/
inductive SignatureError where
  | withheld
  deriving DecidableEq, Repr

def SignatureError.message : SignatureError → String
  | .withheld => "signature error"

def withhold {α : Type} : Except Error α → Except SignatureError α
  | .ok a => .ok a
  | .error _ => .error .withheld

end HashSig
