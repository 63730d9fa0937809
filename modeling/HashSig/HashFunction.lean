import HashSig.Sha256

/-! The hash functions of the parameter sets.

Nothing in this library depends on more than a hash function's output length,
which is one of two: that of SHA-256, or that of SHA-256 cut to 192 bits. The
registered sets therefore take the function that is cut as a parameter `H`; in use,
it is SHA-256.
-/

set_option autoImplicit false

namespace HashSig

inductive HashSize where
  | n24
  | n32
  deriving DecidableEq, Repr

def HashSize.octets : HashSize → Nat
  | .n24 => 24
  | .n32 => 32

structure HashFunction where
  size : HashSize
  digest : Bytes → Octets size.octets

def Octets.truncate {n : Nat} (o : Octets n) (k : Nat) (le : k ≤ n) : Octets k :=
  ⟨o.bytes.take k, by rw [List.length_take, o.length_eq]; exact Nat.min_eq_left le⟩

abbrev Digest := Bytes → Octets 32

/-- `H`, whole or cut to its first twenty-four bytes. -/
def HashFunction.ofDigest (H : Digest) (size : HashSize) : HashFunction where
  size := size
  digest := match size with
    | .n24 => fun message => (H message).truncate 24 (by decide)
    | .n32 => H

abbrev HashFunction.sha256 (size : HashSize) : HashFunction := ofDigest Sha256.digest size

/-- Feeding a message in pieces hashes the concatenation of the pieces. -/
def HashFunction.digestPieces (hash : HashFunction) (pieces : List Bytes) : Octets hash.size.octets :=
  hash.digest pieces.flatten

end HashSig
