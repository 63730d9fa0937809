import HashSig.Octets

/-! SHA-256.

A message is padded to whole blocks of sixty-four bytes, and each block is mixed
into eight words of state. The schedule of a block is kept as a window on sixteen
words of it, which moves on by the recurrence that makes each word of four of the
sixteen before it.
-/

set_option autoImplicit false

namespace HashSig.Sha256

structure State where
  a : UInt32
  b : UInt32
  c : UInt32
  d : UInt32
  e : UInt32
  f : UInt32
  g : UInt32
  h : UInt32

/-- Sixteen words of a block's schedule. -/
structure Window where
  w0 : UInt32
  w1 : UInt32
  w2 : UInt32
  w3 : UInt32
  w4 : UInt32
  w5 : UInt32
  w6 : UInt32
  w7 : UInt32
  w8 : UInt32
  w9 : UInt32
  w10 : UInt32
  w11 : UInt32
  w12 : UInt32
  w13 : UInt32
  w14 : UInt32
  w15 : UInt32

/-- One word for each round, in groups of sixteen. -/
def constants : List Window := [
  ⟨0x428a2f98, 0x71374491, 0xb5c0fbcf, 0xe9b5dba5, 0x3956c25b, 0x59f111f1, 0x923f82a4, 0xab1c5ed5,
    0xd807aa98, 0x12835b01, 0x243185be, 0x550c7dc3, 0x72be5d74, 0x80deb1fe, 0x9bdc06a7, 0xc19bf174⟩,
  ⟨0xe49b69c1, 0xefbe4786, 0x0fc19dc6, 0x240ca1cc, 0x2de92c6f, 0x4a7484aa, 0x5cb0a9dc, 0x76f988da,
    0x983e5152, 0xa831c66d, 0xb00327c8, 0xbf597fc7, 0xc6e00bf3, 0xd5a79147, 0x06ca6351, 0x14292967⟩,
  ⟨0x27b70a85, 0x2e1b2138, 0x4d2c6dfc, 0x53380d13, 0x650a7354, 0x766a0abb, 0x81c2c92e, 0x92722c85,
    0xa2bfe8a1, 0xa81a664b, 0xc24b8b70, 0xc76c51a3, 0xd192e819, 0xd6990624, 0xf40e3585, 0x106aa070⟩,
  ⟨0x19a4c116, 0x1e376c08, 0x2748774c, 0x34b0bcb5, 0x391c0cb3, 0x4ed8aa4a, 0x5b9cca4f, 0x682e6ff3,
    0x748f82ee, 0x78a5636f, 0x84c87814, 0x8cc70208, 0x90befffa, 0xa4506ceb, 0xbef9a3f7, 0xc67178f2⟩]

def initial : State :=
  ⟨0x6a09e667, 0xbb67ae85, 0x3c6ef372, 0xa54ff53a, 0x510e527f, 0x9b05688c, 0x1f83d9ab, 0x5be0cd19⟩

@[inline] def rotateRight (x n : UInt32) : UInt32 := (x >>> n) ||| (x <<< (32 - n))

@[inline] def smallSigma0 (x : UInt32) : UInt32 := rotateRight x 7 ^^^ rotateRight x 18 ^^^ (x >>> 3)

@[inline] def smallSigma1 (x : UInt32) : UInt32 := rotateRight x 17 ^^^ rotateRight x 19 ^^^ (x >>> 10)

@[inline] def bigSigma0 (x : UInt32) : UInt32 :=
  rotateRight x 2 ^^^ rotateRight x 13 ^^^ rotateRight x 22

@[inline] def bigSigma1 (x : UInt32) : UInt32 :=
  rotateRight x 6 ^^^ rotateRight x 11 ^^^ rotateRight x 25

@[inline] def choose (x y z : UInt32) : UInt32 := (x &&& y) ^^^ (~~~x &&& z)

@[inline] def majority (x y z : UInt32) : UInt32 := (x &&& y) ^^^ (x &&& z) ^^^ (y &&& z)

@[inline] def Window.next (w : Window) : Window :=
  ⟨w.w1, w.w2, w.w3, w.w4, w.w5, w.w6, w.w7, w.w8, w.w9, w.w10, w.w11, w.w12, w.w13, w.w14, w.w15,
    smallSigma1 w.w14 + w.w9 + smallSigma0 w.w1 + w.w0⟩

/-- One round, where `x` is the sum of the round's constant and its word. -/
@[inline] def State.round (s : State) (x : UInt32) : State :=
  let t1 := s.h + bigSigma1 s.e + choose s.e s.f s.g + x
  let t2 := bigSigma0 s.a + majority s.a s.b s.c
  ⟨t1 + t2, s.a, s.b, s.c, s.d + t1, s.e, s.f, s.g⟩

@[inline] def Window.following (w : Window) : Window :=
  w |>.next |>.next |>.next |>.next |>.next |>.next |>.next |>.next
    |>.next |>.next |>.next |>.next |>.next |>.next |>.next |>.next

@[inline] def State.roundGroup (s : State) (k w : Window) : State :=
  s |>.round (k.w0 + w.w0) |>.round (k.w1 + w.w1) |>.round (k.w2 + w.w2) |>.round (k.w3 + w.w3)
    |>.round (k.w4 + w.w4) |>.round (k.w5 + w.w5) |>.round (k.w6 + w.w6) |>.round (k.w7 + w.w7)
    |>.round (k.w8 + w.w8) |>.round (k.w9 + w.w9) |>.round (k.w10 + w.w10) |>.round (k.w11 + w.w11)
    |>.round (k.w12 + w.w12) |>.round (k.w13 + w.w13) |>.round (k.w14 + w.w14) |>.round (k.w15 + w.w15)

def State.rounds : List Window → Window → State → State
  | [], _, s => s
  | [k], w, s => s.roundGroup k w
  | k :: ks, w, s => rounds ks w.following (s.roundGroup k w)

def State.compress (s : State) (block : Window) : State :=
  let r := s.rounds constants block
  ⟨s.a + r.a, s.b + r.b, s.c + r.c, s.d + r.d, s.e + r.e, s.f + r.f, s.g + r.g, s.h + r.h⟩

@[inline] def takeWord? : Bytes → Option (UInt32 × Bytes)
  | a :: b :: c :: d :: rest => some (Bytes.word a b c d, rest)
  | _ => none

def Window.take? (b : Bytes) : Option (Window × Bytes) := do
  let (w0, b) ← takeWord? b
  let (w1, b) ← takeWord? b
  let (w2, b) ← takeWord? b
  let (w3, b) ← takeWord? b
  let (w4, b) ← takeWord? b
  let (w5, b) ← takeWord? b
  let (w6, b) ← takeWord? b
  let (w7, b) ← takeWord? b
  let (w8, b) ← takeWord? b
  let (w9, b) ← takeWord? b
  let (w10, b) ← takeWord? b
  let (w11, b) ← takeWord? b
  let (w12, b) ← takeWord? b
  let (w13, b) ← takeWord? b
  let (w14, b) ← takeWord? b
  let (w15, b) ← takeWord? b
  return (⟨w0, w1, w2, w3, w4, w5, w6, w7, w8, w9, w10, w11, w12, w13, w14, w15⟩, b)

def State.absorb : (blocks : Nat) → State → Bytes → State
  | 0, s, _ => s
  | blocks + 1, s, b =>
    match Window.take? b with
    | some (block, rest) => absorb blocks (s.compress block) rest
    | none => s

/-- One bit, then zeros up to the last eight bytes of a block, then the message's
length in bits. -/
def padding (length : Nat) : Bytes :=
  let bits := UInt64.ofNat (8 * length)
  0x80 :: (List.replicate ((119 - length % 64) % 64) (0 : UInt8) ++
    (Bytes.ofUInt32 (bits >>> 32).toUInt32 ++ Bytes.ofUInt32 bits.toUInt32))

@[inline] def putWord (x : UInt32) (rest : Bytes) : Bytes :=
  (x >>> 24).toUInt8 :: (x >>> 16).toUInt8 :: (x >>> 8).toUInt8 :: x.toUInt8 :: rest

def State.bytes (s : State) : Bytes :=
  putWord s.a <| putWord s.b <| putWord s.c <| putWord s.d <|
    putWord s.e <| putWord s.f <| putWord s.g <| putWord s.h []

@[simp] theorem State.length_bytes (s : State) : s.bytes.length = 32 := rfl

def digest (message : Bytes) : Octets 32 :=
  let length := message.length
  let final := initial.absorb ((length + 72) / 64) (message ++ padding length)
  ⟨final.bytes, final.length_bytes⟩

end HashSig.Sha256
