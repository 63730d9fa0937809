import HashSig.OneTime.Chain
import HashSig.OneTime.PublicKey

/-! One-time signatures, and their bytes: typecode, randomizer and chain values.

A signature determines, for each identifier, leaf and message, the only public
key under which it is valid.
-/

set_option autoImplicit false

namespace HashSig.OneTime

@[ext] structure Signature (mode : Mode) where
  c : Octets mode.n
  y : List (Octets mode.n)
  y_length : y.length = mode.chains
  deriving DecidableEq

namespace Signature

variable {mode : Mode}

/-- The ends of the chains that the signature's values lie on. -/
def ends (s : Signature mode) (id : Identifier) (q : UInt32) (msg : Bytes) : List (Octets mode.n) :=
  ((mode.messageDigits id q s.c msg).zip s.y).mapIdx fun i (digit, value) =>
    mode.finish id q i digit value

/-- The one public key under which the signature is valid for `msg`. -/
def recover (s : Signature mode) (id : Identifier) (q : UInt32) (msg : Bytes) : PublicKey mode :=
  ⟨q, id, mode.hash.apply (.publicValue id q (s.ends id q msg))⟩

def encode (s : Signature mode) : Bytes :=
  Bytes.ofUInt32 mode.typecode ++ (s.c.bytes ++ Octets.join s.y)

theorem length_encode (s : Signature mode) : s.encode.length = mode.signatureLength := by
  simp only [encode, List.length_append, Bytes.length_ofUInt32, Octets.length_eq,
    Octets.length_join, s.y_length]
  rw [Nat.add_comm mode.n, ← Nat.succ_mul, Nat.mul_comm]
  rfl

def fields (mode : Mode) (b : Bytes) (exact : b.length = mode.signatureLength) : Signature mode :=
  have whole : b.length = 4 + (mode.n + mode.chains * mode.n) := by
    rw [exact, Nat.mul_comm, Nat.add_comm mode.n, ← Nat.mul_succ]
    rfl
  { c := Octets.slice b 4 mode.n (by omega)
    y := Octets.pieces mode.n mode.chains (b.drop (4 + mode.n)) (by rw [List.length_drop]; omega)
    y_length := Octets.length_pieces _ _ _ }

def decode (mode : Mode) (b : Bytes) : Except Error (Signature mode) := do
  let badLength := Error.invalidSignatureLength mode.signatureLength b.length
  let some typecode := b.uint32At? 0 | throw badLength
  mode.expectTypecode typecode
  if exact : b.length = mode.signatureLength then
    return fields mode b exact
  else
    throw badLength

end Signature

/-- Accepts a signature that recovers the key itself. -/
def PublicKey.verify {mode : Mode} (key : PublicKey mode) (msg : Bytes) (s : Signature mode) :
    Except SignatureError Unit :=
  if key.k = (s.recover key.id key.q msg).k then .ok () else .error .withheld

end HashSig.OneTime
