import HashSig.ManyTime.SharedKey

/-! How keys and signatures are shown to people.

Of a private key only the leaf counter and the identifier are shown, of a
signature the number of its chain values and not the values.
-/

set_option autoImplicit false

namespace HashSig

namespace Text

def octets (b : Bytes) : String :=
  "[" ++ ", ".intercalate (b.map fun x => x.toNat.repr) ++ "]"

def word (x : UInt32) : String := x.toNat.repr

def field (name value : String) : String := name ++ ": " ++ value

def record (name : String) (fields : List String) : String :=
  name ++ " \x7b " ++ ", ".intercalate fields ++ " \x7d"

/-- A value of which some parts are withheld. -/
def openRecord (name : String) (fields : List String) : String :=
  record name (fields ++ [".."])

end Text

open Text

/-- A hash computation under way, shown without its state. -/
def HashFunction.displayTruncated : String := record "Sha256_192" ["..."]

namespace OneTime

variable {mode : Mode}

def PrivateKey.display (key : PrivateKey mode) : String :=
  openRecord "SigningKey" [field "q" (word key.q), field "id" (octets key.id.bytes)]

def PublicKey.display (key : PublicKey mode) : String :=
  record "VerifyingKey"
    [field "q" (word key.q), field "id" (octets key.id.bytes), field "k" (octets key.k.bytes)]

def Signature.display (s : Signature mode) : String :=
  record "Signature"
    [field "typecode" (word mode.typecode), field "c" (octets s.c.bytes),
      field "y" s.y.length.repr]

end OneTime

namespace ManyTime

variable {mode : Mode}

def PrivateKey.fields (key : PrivateKey mode) : List String :=
  [field "typecode" (word mode.typecode), field "q" (word key.q), field "id" (octets key.id.bytes)]

def SigningKey.display (key : SigningKey mode) : String :=
  openRecord "SigningKey" key.toPrivateKey.fields

def SharedKey.display (key : SharedKey mode) : String :=
  openRecord "SharedSigningKey" key.toPrivateKey.fields

def PublicKey.display (key : PublicKey mode) : String :=
  record "VerifyingKey"
    [field "typecode" (word mode.typecode), field "id" (octets key.id.bytes),
      field "k" (octets key.root.bytes)]

def Signature.display (s : Signature mode) : String :=
  openRecord "Signature"
    [field "typecode" (word mode.typecode), field "q" (word s.leaf.index),
      field "lmots_sig" s.oneTime.display]

end ManyTime

end HashSig
