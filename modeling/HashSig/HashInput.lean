import HashSig.HashFunction

/-! What is hashed.

Every hash of the scheme is taken of one of seven kinds of input. An input
begins with the identifier of the key, a word that numbers a leaf or a node, and
two bytes that number a chain or, from 0x8080 on and for the randomizer, name
the kind.
-/

set_option autoImplicit false

namespace HashSig

abbrev Identifier := Octets 16

/-- An input whose hash-sized fields have `n` bytes. -/
inductive HashInput (n : Nat) where
  | chainStart (id : Identifier) (q : UInt32) (i : UInt16) (seed : Octets n)
  | randomizer (id : Identifier) (q : UInt32) (seed : Octets n)
  | chainStep (id : Identifier) (q : UInt32) (i : UInt16) (j : UInt8) (value : Octets n)
  | publicValue (id : Identifier) (q : UInt32) (ends : List (Octets n))
  | message (id : Identifier) (q : UInt32) (c : Octets n) (msg : Bytes)
  /-- Makes a one-time public value the leaf with node number `r`. -/
  | leaf (id : Identifier) (r : UInt32) (key : Octets n)
  | interior (id : Identifier) (r : UInt32) (left right : Octets n)
  deriving DecidableEq

namespace HashInput

variable {n : Nat}

def publicValueTag : UInt16 := 0x8080
def messageTag : UInt16 := 0x8181
def leafTag : UInt16 := 0x8282
def interiorTag : UInt16 := 0x8383

/-- Stands where a chain has its number when the randomizer is derived. -/
def randomizerIndex : UInt16 := 0xfffd

/-- Stands where a chain step has its number when a secret is derived. -/
def seedByte : UInt8 := 0xff

def encode : HashInput n → Bytes
  | .chainStart id q i seed =>
    id.bytes ++ (Bytes.ofUInt32 q ++ (Bytes.ofUInt16 i ++ seedByte :: seed.bytes))
  | .randomizer id q seed =>
    id.bytes ++ (Bytes.ofUInt32 q ++ (Bytes.ofUInt16 randomizerIndex ++ seedByte :: seed.bytes))
  | .chainStep id q i j value =>
    id.bytes ++ (Bytes.ofUInt32 q ++ (Bytes.ofUInt16 i ++ j :: value.bytes))
  | .publicValue id q ends =>
    id.bytes ++ (Bytes.ofUInt32 q ++ (Bytes.ofUInt16 publicValueTag ++ Octets.join ends))
  | .message id q c msg =>
    id.bytes ++ (Bytes.ofUInt32 q ++ (Bytes.ofUInt16 messageTag ++ (c.bytes ++ msg)))
  | .leaf id r key =>
    id.bytes ++ (Bytes.ofUInt32 r ++ (Bytes.ofUInt16 leafTag ++ key.bytes))
  | .interior id r left right =>
    id.bytes ++ (Bytes.ofUInt32 r ++ (Bytes.ofUInt16 interiorTag ++ (left.bytes ++ right.bytes)))

end HashInput

def HashFunction.apply (hash : HashFunction) (input : HashInput hash.size.octets) :
    Octets hash.size.octets :=
  hash.digest input.encode

end HashSig
