import HashSig.ManyTime.SigningKey

/-! Signing keys that many callers use at once.

The tree is there from the start and never changes, and the counter moves in one
indivisible step, so calls that run at once are given different leaves and
disturb each other in nothing else.
-/

set_option autoImplicit false

namespace HashSig.ManyTime

structure SharedKey (mode : Mode) extends PrivateKey mode where
  tree : Tree mode

def SigningKey.share {mode : Mode} (key : SigningKey mode) : Logged (SharedKey mode) :=
  match key.tree with
  | some tree => pure ⟨key.toPrivateKey, tree⟩
  | none => do
    let tree ← key.buildTree
    return ⟨key.toPrivateKey, tree⟩

namespace SharedKey

variable {mode : Mode}

def unshare (key : SharedKey mode) : SigningKey mode := ⟨key.toPrivateKey, some key.tree⟩

def publicKey (key : SharedKey mode) : PublicKey mode := ⟨key.id, key.tree.root⟩

def reserve (key : SharedKey mode) : Logged (Except Error (Leaf mode) × SharedKey mode) :=
  if unused : key.q < mode.leaves then do
    Logged.emitIf (key.q + 1 = mode.leaves) (.nowExhausted mode.typecode)
    return (.ok ⟨key.q, unused⟩, { key with q := key.q + 1 })
  else do
    Logged.emit (.refusedExhausted mode.typecode)
    return (.error .keyExhausted, key)

/-- Signs with the next leaf, and with the given randomizer if there is one. A
randomizer of the wrong length is refused first and uses up no leaf. -/
def sign (key : SharedKey mode) (msg : Bytes) (randomizer : Option Bytes) :
    Logged (Except Error (Signature mode) × SharedKey mode) :=
  match mode.readRandomizer randomizer with
  | .error e => pure (.error e, key)
  | .ok c => do
    let (reserved, key) ← key.reserve
    match reserved with
    | .error e => return (.error e, key)
    | .ok leaf => return (.ok (key.signLeaf key.tree leaf msg c), key)

def signGeneric (key : SharedKey mode) (msg : Bytes) :
    Logged (Except SignatureError (Signature mode) × SharedKey mode) := do
  let (answer, key) ← key.sign msg none
  return (withhold answer, key)

end SharedKey

end HashSig.ManyTime
