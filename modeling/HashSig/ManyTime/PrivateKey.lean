import HashSig.ManyTime.PublicKey
import HashSig.Event

/-! The lasting part of a signing key: its leaf counter, identifier and seed.

Everything else about a signing key follows from these three. Their bytes are
the typecodes, the counter, the identifier and the seed. The counter names the
next leaf to sign with; it equals the number of leaves once every leaf has
signed.
-/

set_option autoImplicit false

namespace HashSig.ManyTime

@[ext] structure PrivateKey (mode : Mode) where
  q : UInt32
  id : Identifier
  seed : Octets mode.n
  deriving DecidableEq

/-- The randomizer a caller supplied, if it has the length of a hash. -/
def Mode.readRandomizer (mode : Mode) : Option Bytes → Except Error (Option (Octets mode.n))
  | none => .ok none
  | some c =>
    match Octets.ofBytes? mode.n c with
    | some c => .ok (some c)
    | none => .error (.invalidRandomizerLength mode.n c.length)

namespace PrivateKey

variable {mode : Mode}

def remaining (key : PrivateKey mode) : UInt32 := mode.leaves - key.q

def isExhausted (key : PrivateKey mode) : Bool := key.q ≥ mode.leaves

def encode (key : PrivateKey mode) : Bytes :=
  mode.header ++ (Bytes.ofUInt32 key.q ++ (key.id.bytes ++ key.seed.bytes))

theorem length_encode (key : PrivateKey mode) : key.encode.length = mode.privateKeyLength := by
  simp only [encode, List.length_append, Mode.length_header, Bytes.length_ofUInt32,
    Octets.length_eq, Mode.privateKeyLength]
  omega

/-- Reads a key that fills the whole string. Its counter may say that the key is
exhausted, but not more. -/
def decode (mode : Mode) (b : Bytes) : Except Error (PrivateKey mode) := do
  mode.expectHeader .invalidPrivateKeyEncoding b
  if exact : b.length = mode.privateKeyLength then
    have whole : b.length = 28 + mode.n := exact
    let q := b.uint32At 8 (by omega)
    if q ≤ mode.leaves then
      return {
        q := q
        id := Octets.slice b 12 16 (by omega)
        seed := Octets.slice b 28 mode.n (by omega) }
    else
      throw .invalidPrivateKeyEncoding
  else
    throw .invalidPrivateKeyEncoding

def ofSeed (mode : Mode) (id : Identifier) (seed : Bytes) : Except Error (PrivateKey mode) :=
  match Octets.ofBytes? mode.n seed with
  | some octets => .ok ⟨0, id, octets⟩
  | none => .error (.invalidSeedLength mode.n seed.length)

/-- A new key whose identifier, and then whose seed, is read from a source. -/
def generate (mode : Mode) (source : ByteStream) : PrivateKey mode :=
  ⟨0, source.take 16, (source.drop 16).take mode.n⟩

/-- The randomizer of a leaf for which the caller supplies none. -/
def randomizer (key : PrivateKey mode) (leaf : Leaf mode) : Octets mode.n :=
  mode.hash.apply (.randomizer key.id leaf.index key.seed)

def buildTree (key : PrivateKey mode) : Logged (Tree mode) := do
  Logged.emit (.buildingTree mode.height mode.typecode)
  return Tree.generate mode key.id key.seed

/-- Signs with a leaf. The key's counter plays no part. -/
def signLeaf (key : PrivateKey mode) (tree : Tree mode) (leaf : Leaf mode) (msg : Bytes)
    (c : Option (Octets mode.n)) : Signature mode where
  leaf := leaf
  oneTime := (OneTime.PrivateKey.derive leaf.index key.id key.seed).sign msg
    (c.getD (key.randomizer leaf))
  path := tree.path leaf
  path_length := tree.length_path leaf

end PrivateKey

end HashSig.ManyTime
