import HashSig.ManyTime.Tree

/-! Many-time signatures, and their bytes: leaf number, one-time signature,
typecode and path.

A signature has a leaf of the tree and one sibling for each level; a string that
would say otherwise is refused when it is read.
-/

set_option autoImplicit false

namespace HashSig.ManyTime

@[ext] structure Signature (mode : Mode) where
  leaf : Leaf mode
  oneTime : OneTime.Signature mode.oneTime
  path : List (Octets mode.n)
  path_length : path.length = mode.height
  deriving DecidableEq

namespace Signature

variable {mode : Mode}

/-- The root under which the signature is valid for `msg`. -/
def recover (s : Signature mode) (id : Identifier) (msg : Bytes) : Octets mode.n :=
  mode.climb id s.leaf.node
    (mode.leafHash id s.leaf.node (s.oneTime.recover id s.leaf.index msg).k) s.path

def encode (s : Signature mode) : Bytes :=
  Bytes.ofUInt32 s.leaf.index ++
    (s.oneTime.encode ++ (Bytes.ofUInt32 mode.typecode ++ Octets.join s.path))

theorem length_encode (s : Signature mode) : s.encode.length = mode.signatureLength := by
  simp only [encode, List.length_append, Bytes.length_ofUInt32, OneTime.Signature.length_encode,
    Octets.length_join, s.path_length, Mode.signatureLength]
  omega

def withPath (leaf : Leaf mode) (oneTime : OneTime.Signature mode.oneTime) (b : Bytes)
    (exact : b.length = mode.signatureLength) : Signature mode where
  leaf := leaf
  oneTime := oneTime
  path := Octets.pieces mode.n mode.height (b.drop (8 + mode.oneTime.signatureLength))
    (by rw [List.length_drop, exact, Mode.signatureLength]; omega)
  path_length := Octets.length_pieces _ _ _

/-- Reads a signature that fills the whole string. The typecodes are looked at
before the leaf number, and that before the length. -/
def decode (mode : Mode) (b : Bytes) : Except Error (Signature mode) := do
  let badLength := Error.invalidSignatureLength mode.signatureLength b.length
  let oneTimeLength := mode.oneTime.signatureLength
  let some q := b.uint32At? 0 | throw badLength
  let some oneTimeType := b.uint32At? 4 | throw badLength
  mode.oneTime.expectTypecode oneTimeType
  let some manyTimeType := b.uint32At? (4 + oneTimeLength) | throw badLength
  mode.expectTypecode manyTimeType
  if inRange : q < mode.leaves then
    if exact : b.length = mode.signatureLength then
      let oneTime ← OneTime.Signature.decode mode.oneTime ((b.drop 4).take oneTimeLength)
      return withPath ⟨q, inRange⟩ oneTime b exact
    else
      throw badLength
  else
    throw .invalidSignatureEncoding

end Signature

end HashSig.ManyTime
