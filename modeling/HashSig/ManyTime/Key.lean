import HashSig.Display

/-! A key through its life.

A key is used by one caller or shared by many, and may be turned from the one
form into the other. Each operation gives an answer and the key as it is
afterwards; an operation that a form does not offer changes nothing.
-/

set_option autoImplicit false

namespace HashSig.ManyTime

inductive Key (mode : Mode) where
  | signing (key : SigningKey mode)
  | shared (key : SharedKey mode)

inductive Operation where
  | sign (msg : Bytes) (randomizer : Option Bytes)
  | signGeneric (msg : Bytes)
  /-- Sign through the scheme-independent interface with a random randomizer. -/
  | signRandomized (source : FallibleSource) (msg : Bytes)
  | precompute
  | publicKey
  | save
  | display
  | share
  | unshare

inductive Answer (mode : Mode) where
  | signature (s : Signature mode)
  | publicKey (key : PublicKey mode)
  | bytes (b : Bytes)
  | text (t : String)
  | done
  | failed (e : Error)
  | refused (e : SignatureError)
  /-- The key's form has no such operation. -/
  | unavailable
  deriving DecidableEq

namespace Answer

variable {mode : Mode}

def ofSign : Except Error (Signature mode) → Answer mode
  | .ok s => .signature s
  | .error e => .failed e

def ofGeneric : Except SignatureError (Signature mode) → Answer mode
  | .ok s => .signature s
  | .error e => .refused e

end Answer

namespace Key

variable {mode : Mode}

def privateKey : Key mode → PrivateKey mode
  | .signing key => key.toPrivateKey
  | .shared key => key.toPrivateKey

def performSigning (key : SigningKey mode) : Operation → Logged (Answer mode × Key mode)
  | .sign msg randomizer => do
    let (answer, key) ← key.sign msg randomizer
    return (.ofSign answer, .signing key)
  | .signGeneric msg => do
    let (answer, key) ← key.signGeneric msg
    return (.ofGeneric answer, .signing key)
  | .signRandomized source msg => do
    let (answer, key) ← key.signRandomized source msg
    return (.ofGeneric answer, .signing key)
  | .precompute => do
    let key ← key.precompute
    return (.done, .signing key)
  | .publicKey => do
    let (publicKey, key) ← key.publicKey
    return (.publicKey publicKey, .signing key)
  | .save => pure (.bytes key.encode, .signing key)
  | .display => pure (.text key.display, .signing key)
  | .share => do
    let shared ← key.share
    return (.done, .shared shared)
  | .unshare => pure (.unavailable, .signing key)

def performShared (key : SharedKey mode) : Operation → Logged (Answer mode × Key mode)
  | .sign msg randomizer => do
    let (answer, key) ← key.sign msg randomizer
    return (.ofSign answer, .shared key)
  | .signGeneric msg => do
    let (answer, key) ← key.signGeneric msg
    return (.ofGeneric answer, .shared key)
  | .publicKey => pure (.publicKey key.publicKey, .shared key)
  | .display => pure (.text key.display, .shared key)
  | .unshare => pure (.done, .signing key.unshare)
  | .signRandomized _ _ | .precompute | .save | .share => pure (.unavailable, .shared key)

def perform : Key mode → Operation → Logged (Answer mode × Key mode)
  | .signing key => performSigning key
  | .shared key => performShared key

def run : Key mode → List Operation → Logged (List (Answer mode) × Key mode)
  | key, [] => pure ([], key)
  | key, op :: ops => do
    let (answer, key) ← key.perform op
    let (answers, key) ← run key ops
    return (answer :: answers, key)

end Key

end HashSig.ManyTime
