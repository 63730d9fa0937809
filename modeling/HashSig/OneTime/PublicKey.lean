import HashSig.OneTime.Mode

/-! Public keys of one-time signing, and their bytes:
typecode, identifier, leaf number and public value. -/

set_option autoImplicit false

namespace HashSig.OneTime

@[ext] structure PublicKey (mode : Mode) where
  q : UInt32
  id : Identifier
  k : Octets mode.n
  deriving DecidableEq

namespace PublicKey

variable {mode : Mode}

def encode (key : PublicKey mode) : Bytes :=
  Bytes.ofUInt32 mode.typecode ++ (key.id.bytes ++ (Bytes.ofUInt32 key.q ++ key.k.bytes))

theorem length_encode (key : PublicKey mode) : key.encode.length = mode.publicKeyLength := by
  simp only [encode, List.length_append, Bytes.length_ofUInt32, Octets.length_eq,
    Mode.publicKeyLength]
  omega

def decode (mode : Mode) (b : Bytes) : Except Error (PublicKey mode) := do
  let some typecode := b.uint32At? 0 | throw .invalidPublicKey
  mode.expectTypecode typecode
  if exact : b.length = mode.publicKeyLength then
    have whole : b.length = 24 + mode.n := exact
    return {
      q := b.uint32At 20 (by omega)
      id := Octets.slice b 4 16 (by omega)
      k := Octets.slice b 24 mode.n (by omega) }
  else
    throw .invalidPublicKey

end PublicKey

end HashSig.OneTime
