import HashSig.OneTime.Signature

/-! Private keys of one-time signing.

A private key is the secret start of every chain. All starts are derived from
one seed, so a tree of keys is determined by a single secret.
-/

set_option autoImplicit false

namespace HashSig

abbrev ByteStream := Nat → UInt8

namespace ByteStream

def take (s : ByteStream) (n : Nat) : Octets n := ⟨(List.range n).map s, by simp⟩

def drop (s : ByteStream) (n : Nat) : ByteStream := fun i => s (n + i)

end ByteStream

namespace OneTime

structure PrivateKey (mode : Mode) where
  q : UInt32
  id : Identifier
  starts : List (Octets mode.n)
  starts_length : starts.length = mode.chains

namespace PrivateKey

variable {mode : Mode}

def derive (q : UInt32) (id : Identifier) (seed : Octets mode.n) : PrivateKey mode where
  q := q
  id := id
  starts := (List.range mode.chains).map fun i =>
    mode.hash.apply (.chainStart id q (UInt16.ofNat i) seed)
  starts_length := by simp

def ofSeed (mode : Mode) (q : UInt32) (id : Identifier) (seed : Bytes) :
    Except Error (PrivateKey mode) :=
  match Octets.ofBytes? mode.n seed with
  | some seed => .ok (derive q id seed)
  | none => .error .oneTimeDerivationFailed

def generate (mode : Mode) (q : UInt32) (id : Identifier) (source : ByteStream) : PrivateKey mode :=
  derive q id (source.take mode.n)

def ends (key : PrivateKey mode) : List (Octets mode.n) :=
  key.starts.mapIdx fun i start => mode.walk key.id key.q i 0 mode.width.maxDigit start

def publicKey (key : PrivateKey mode) : PublicKey mode :=
  ⟨key.q, key.id, mode.hash.apply (.publicValue key.id key.q key.ends)⟩

/-- Signs with the randomizer `c`. A key is to sign once only. -/
def sign (key : PrivateKey mode) (msg : Bytes) (c : Octets mode.n) : Signature mode where
  c := c
  y := ((mode.messageDigits key.id key.q c msg).zip key.starts).mapIdx fun i (digit, start) =>
    mode.walk key.id key.q i 0 digit.toNat start
  y_length := by
    rw [List.length_mapIdx, List.length_zip, Mode.length_messageDigits, key.starts_length,
      Nat.min_self]

end PrivateKey

end OneTime

end HashSig
