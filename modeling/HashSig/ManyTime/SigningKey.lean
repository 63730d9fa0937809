import HashSig.ManyTime.PrivateKey

/-! Signing keys that one caller uses at a time.

A key remembers its tree once it has been built. A key that was loaded without
its tree builds it when it is first needed. Every signature uses up a leaf, and
the leaf is used up before any work on the signature begins.
-/

set_option autoImplicit false

namespace HashSig.ManyTime

abbrev FallibleSource := (n : Nat) → Option (Octets n)

structure SigningKey (mode : Mode) extends PrivateKey mode where
  tree : Option (Tree mode)

namespace SigningKey

variable {mode : Mode}

/-- Keys are compared without their trees. -/
instance : BEq (SigningKey mode) := ⟨fun a b => a.toPrivateKey == b.toPrivateKey⟩

def ofPrivateKey (key : PrivateKey mode) : Logged (SigningKey mode) := do
  let tree ← key.buildTree
  return ⟨key, some tree⟩

def ofSeed (mode : Mode) (id : Identifier) (seed : Bytes) :
    Logged (Except Error (SigningKey mode)) :=
  match PrivateKey.ofSeed mode id seed with
  | .error e => pure (.error e)
  | .ok key => .ok <$> ofPrivateKey key

def generate (mode : Mode) (source : ByteStream) : Logged (SigningKey mode) := do
  Logged.emit (.generatingKey mode.typecode mode.oneTime.typecode)
  ofPrivateKey (PrivateKey.generate mode source)

def load (mode : Mode) (b : Bytes) : Logged (Except Error (SigningKey mode)) :=
  match PrivateKey.decode mode b with
  | .error e => pure (.error e)
  | .ok key => do
    Logged.emit (.loadedKey key.q mode.typecode)
    .ok <$> ofPrivateKey key

def loadWithoutTree (mode : Mode) (b : Bytes) : Logged (Except Error (SigningKey mode)) :=
  match PrivateKey.decode mode b with
  | .error e => pure (.error e)
  | .ok key => do
    Logged.emit (.loadedKeyWithoutTree key.q mode.typecode)
    return .ok ⟨key, none⟩

def withTree (key : SigningKey mode) : Logged (Tree mode × SigningKey mode) :=
  match key.tree with
  | some tree => pure (tree, key)
  | none => do
    let tree ← key.buildTree
    return (tree, { key with tree := some tree })

def precompute (key : SigningKey mode) : Logged (SigningKey mode) := Prod.snd <$> key.withTree

def publicKey (key : SigningKey mode) : Logged (PublicKey mode × SigningKey mode) := do
  let (tree, key) ← key.withTree
  return (⟨key.id, tree.root⟩, key)

def reserve (key : SigningKey mode) : Logged (Except Error (Leaf mode) × SigningKey mode) :=
  if unused : key.q < mode.leaves then do
    let next : SigningKey mode := { key with q := key.q + 1 }
    Logged.emitIf next.isExhausted (.nowExhausted mode.typecode)
    return (.ok ⟨key.q, unused⟩, next)
  else do
    Logged.emit (.refusedExhausted mode.typecode)
    return (.error .keyExhausted, key)

/-- Signs with the next leaf, and with the given randomizer if there is one. A
randomizer of the wrong length is refused first and uses up no leaf. -/
def sign (key : SigningKey mode) (msg : Bytes) (randomizer : Option Bytes) :
    Logged (Except Error (Signature mode) × SigningKey mode) :=
  match mode.readRandomizer randomizer with
  | .error e => pure (.error e, key)
  | .ok c => do
    let (reserved, key) ← key.reserve
    match reserved with
    | .error e => return (.error e, key)
    | .ok leaf =>
      let (tree, key) ← key.withTree
      return (.ok (key.signLeaf tree leaf msg c), key)

/-- The scheme-independent form of `sign`, without a randomizer. -/
def signGeneric (key : SigningKey mode) (msg : Bytes) :
    Logged (Except SignatureError (Signature mode) × SigningKey mode) := do
  let (answer, key) ← key.sign msg none
  return (withhold answer, key)

/-- Signs with a randomizer read from a source. If the source fails, nothing
else happens. -/
def signRandomized (key : SigningKey mode) (source : FallibleSource) (msg : Bytes) :
    Logged (Except SignatureError (Signature mode) × SigningKey mode) :=
  match source mode.n with
  | none => pure (.error .withheld, key)
  | some c => do
    let (answer, key) ← key.sign msg (some c.bytes)
    return (withhold answer, key)

end SigningKey

end HashSig.ManyTime
