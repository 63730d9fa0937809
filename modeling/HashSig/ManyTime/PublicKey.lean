import HashSig.ManyTime.Signature

/-! Public keys of many-time signing, and their bytes:
typecodes, identifier and root. -/

set_option autoImplicit false

namespace HashSig.ManyTime

@[ext] structure PublicKey (mode : Mode) where
  id : Identifier
  root : Octets mode.n
  deriving DecidableEq

namespace PublicKey

variable {mode : Mode}

def ofRoot (mode : Mode) (id : Identifier) (root : Bytes) : Except Error (PublicKey mode) :=
  match Octets.ofBytes? mode.n root with
  | some root => .ok ⟨id, root⟩
  | none => .error .invalidPublicKey

def encode (key : PublicKey mode) : Bytes :=
  mode.header ++ (key.id.bytes ++ key.root.bytes)

theorem length_encode (key : PublicKey mode) : key.encode.length = mode.publicKeyLength := by
  simp only [encode, List.length_append, Mode.length_header, Octets.length_eq,
    Mode.publicKeyLength]
  omega

def decode (mode : Mode) (b : Bytes) : Except Error (PublicKey mode) := do
  mode.expectHeader .invalidPublicKey b
  if exact : b.length = mode.publicKeyLength then
    have whole : b.length = 24 + mode.n := exact
    return {
      id := Octets.slice b 8 16 (by omega)
      root := Octets.slice b 24 mode.n (by omega) }
  else
    throw .invalidPublicKey

/-- Accepts a signature that climbs to the key's root. -/
def check (key : PublicKey mode) (msg : Bytes) (s : Signature mode) : Except Error Unit :=
  if key.root = s.recover key.id msg then .ok () else .error .verificationFailed

def verify (key : PublicKey mode) (msg : Bytes) (s : Signature mode) : Except SignatureError Unit :=
  withhold (key.check msg s)

end PublicKey

end HashSig.ManyTime
