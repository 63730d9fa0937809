import HashSig.ManyTime.Key
import HashSig.Proofs.Encoding

/-! Sound keys.

A key is made or read (`Origin`). However it came about, its counter is in range
and a tree that it has is its own (`Key.Sound`). A sound key of either form signs
with its next leaf and its own tree, and moves on; an exhausted key, or a
randomizer of the wrong length, leaves it as it was.
-/

set_option autoImplicit false

namespace HashSig.ManyTime

/-- How a signing key comes about. -/
inductive Origin where
  | seed (id : Identifier) (seed : Bytes)
  | random (source : ByteStream)
  | bytes (b : Bytes) (withTree : Bool)

def Origin.start (mode : Mode) : Origin → Logged (Except Error (SigningKey mode))
  | .seed id secret => SigningKey.ofSeed mode id secret
  | .random source => .ok <$> SigningKey.generate mode source
  | .bytes b true => SigningKey.load mode b
  | .bytes b false => SigningKey.loadWithoutTree mode b

variable {mode : Mode}

namespace PrivateKey

def merkleTree (key : PrivateKey mode) : Tree mode := Tree.generate mode key.id key.seed

def publicHalf (key : PrivateKey mode) : PublicKey mode := ⟨key.id, key.merkleTree.root⟩

def next (key : PrivateKey mode) : PrivateKey mode := { key with q := key.q + 1 }

def signNext (key : PrivateKey mode) (unused : key.q < mode.leaves) (msg : Bytes)
    (c : Option (Octets mode.n)) : Signature mode :=
  key.signLeaf key.merkleTree ⟨key.q, unused⟩ msg c

theorem toNat_next {key : PrivateKey mode} (unused : key.q < mode.leaves) :
    key.next.q.toNat = key.q.toNat + 1 := by
  have below := UInt32.lt_iff_toNat_lt.1 unused
  have bound := mode.leaves.toNat_lt
  rw [next, UInt32.toNat_add, UInt32.toNat_one]
  exact Nat.mod_eq_of_lt (by omega)

theorem next_le {key : PrivateKey mode} (unused : key.q < mode.leaves) :
    key.next.q ≤ mode.leaves := by
  rw [UInt32.le_iff_toNat_le, toNat_next unused]
  exact UInt32.lt_iff_toNat_lt.1 unused

theorem toNat_remaining {key : PrivateKey mode} (inRange : key.q ≤ mode.leaves) :
    key.remaining.toNat = mode.leaves.toNat - key.q.toNat :=
  UInt32.toNat_sub_of_le _ _ inRange

end PrivateKey

/-! ## Sound keys -/

structure SigningKey.Sound (key : SigningKey mode) : Prop where
  inRange : key.q ≤ mode.leaves
  cached : ∀ tree, key.tree = some tree → tree = key.merkleTree

structure SharedKey.Sound (key : SharedKey mode) : Prop where
  inRange : key.q ≤ mode.leaves
  cached : key.tree = key.merkleTree

def Key.Sound : Key mode → Prop
  | .signing key => key.Sound
  | .shared key => key.Sound

theorem Key.Sound.inRange : ∀ {key : Key mode}, key.Sound → key.privateKey.q ≤ mode.leaves
  | .signing _, sound => SigningKey.Sound.inRange sound
  | .shared _, sound => SharedKey.Sound.inRange sound

theorem PrivateKey.inRange_of_decode {b : Bytes} {key : PrivateKey mode}
    (read : PrivateKey.decode mode b = .ok key) : key.q ≤ mode.leaves := by
  rw [decode] at read
  obtain ⟨_, _, read⟩ := bind_eq_ok_iff.1 read
  split at read
  · dsimp only at read
    split at read
    · next inRange => cases read; exact inRange
    · cases read
  · cases read

theorem SigningKey.sound_ofPrivateKey {key : PrivateKey mode} (inRange : key.q ≤ mode.leaves) :
    (SigningKey.ofPrivateKey key).value.Sound :=
  ⟨inRange, fun _ same => (Option.some.inj same).symm⟩

namespace Origin

-- A key that was read has the three parts that its bytes say.
theorem decode_of_start {b : Bytes} {withTree : Bool} {first : SigningKey mode}
    (started : ((Origin.bytes b withTree).start mode).value = .ok first) :
    PrivateKey.decode mode b = .ok first.toPrivateKey := by
  cases withTree <;> simp only [start, SigningKey.load, SigningKey.loadWithoutTree] at started <;>
    split at started
  · cases started
  · next read => cases started; exact read
  · cases started
  · next read => cases started; exact read

-- A key that was written can be read again, with its tree or without.
theorem start_encode (registered : mode.Registered) {key : PrivateKey mode}
    (inRange : key.q ≤ mode.leaves) (withTree : Bool) :
    ((Origin.bytes key.encode withTree).start mode).value =
      .ok ⟨key, if withTree then some key.merkleTree else none⟩ := by
  have read := key.decode_encode registered inRange
  cases withTree <;> simp only [start, SigningKey.load, SigningKey.loadWithoutTree, read] <;> rfl

theorem sound_start {origin : Origin} {first : SigningKey mode}
    (started : (origin.start mode).value = .ok first) : first.Sound := by
  match origin with
  | .seed id secret =>
    simp only [start, SigningKey.ofSeed, PrivateKey.ofSeed] at started
    split at started
    · cases started
    · next made =>
      split at made
      · cases made
        cases started
        exact SigningKey.sound_ofPrivateKey UInt32.zero_le
      · cases made
  | .random source =>
    simp only [start] at started
    cases started
    exact SigningKey.sound_ofPrivateKey UInt32.zero_le
  | .bytes b true =>
    have inRange := PrivateKey.inRange_of_decode (decode_of_start started)
    simp only [start, SigningKey.load] at started
    split at started
    · cases started
    · cases started
      exact SigningKey.sound_ofPrivateKey inRange
  | .bytes b false =>
    have inRange := PrivateKey.inRange_of_decode (decode_of_start started)
    simp only [start, SigningKey.loadWithoutTree] at started
    split at started
    · cases started
    · cases started
      exact ⟨inRange, nofun⟩

end Origin

/-! ## Signing with one form of the key -/

namespace SigningKey

variable {key : SigningKey mode}

def advance (key : SigningKey mode) : SigningKey mode := ⟨key.next, some key.merkleTree⟩

theorem Sound.advance (unused : key.q < mode.leaves) : key.advance.Sound :=
  ⟨PrivateKey.next_le unused, fun _ same => (Option.some.inj same).symm⟩

def built (key : SigningKey mode) : SigningKey mode := ⟨key.toPrivateKey, some key.merkleTree⟩

theorem Sound.built (sound : key.Sound) : key.built.Sound :=
  ⟨sound.inRange, fun _ same => (Option.some.inj same).symm⟩

theorem Sound.value_withTree (sound : key.Sound) :
    key.withTree.value = (key.merkleTree, key.built) := by
  obtain ⟨lasting, _ | tree⟩ := key
  · rfl
  · rw [SigningKey.built, ← sound.cached tree rfl]
    rfl

theorem Sound.value_share (sound : key.Sound) :
    key.share.value = ⟨key.toPrivateKey, key.merkleTree⟩ := by
  obtain ⟨lasting, _ | tree⟩ := key
  · rfl
  · rw [← sound.cached tree rfl]
    rfl

theorem value_sign_of_refused {msg : Bytes} {randomizer : Option Bytes} {e : Error}
    (read : mode.readRandomizer randomizer = .error e) :
    (key.sign msg randomizer).value = (.error e, key) := by
  rw [sign, read]
  rfl

theorem value_sign_of_exhausted {msg : Bytes} {randomizer : Option Bytes} {c : Option (Octets mode.n)}
    (read : mode.readRandomizer randomizer = .ok c) (used : ¬ key.q < mode.leaves) :
    (key.sign msg randomizer).value = (.error .keyExhausted, key) := by
  simp only [sign, read, reserve, dif_neg used]
  rfl

theorem Sound.value_sign (sound : key.Sound) {msg : Bytes} {randomizer : Option Bytes}
    {c : Option (Octets mode.n)} (read : mode.readRandomizer randomizer = .ok c)
    (unused : key.q < mode.leaves) :
    (key.sign msg randomizer).value = (.ok (key.signNext unused msg c), key.advance) := by
  -- The tree is looked for after the leaf is used up, and is the same then.
  have left : (SigningKey.mk key.next key.tree).Sound := ⟨PrivateKey.next_le unused, sound.cached⟩
  simp only [sign, read, reserve, dif_pos unused, Logged.value_bind, Logged.value_pure]
  rw [← PrivateKey.next, left.value_withTree]
  rfl

end SigningKey

namespace SharedKey

variable {key : SharedKey mode}

def advance (key : SharedKey mode) : SharedKey mode := ⟨key.next, key.tree⟩

theorem Sound.advance (sound : key.Sound) (unused : key.q < mode.leaves) : key.advance.Sound :=
  ⟨PrivateKey.next_le unused, sound.cached⟩

theorem Sound.unshare (sound : key.Sound) : key.unshare.Sound :=
  ⟨sound.inRange, fun _ same => (Option.some.inj same).symm.trans sound.cached⟩

theorem value_sign_of_refused {msg : Bytes} {randomizer : Option Bytes} {e : Error}
    (read : mode.readRandomizer randomizer = .error e) :
    (key.sign msg randomizer).value = (.error e, key) := by
  rw [sign, read]
  rfl

theorem value_sign_of_exhausted {msg : Bytes} {randomizer : Option Bytes} {c : Option (Octets mode.n)}
    (read : mode.readRandomizer randomizer = .ok c) (used : ¬ key.q < mode.leaves) :
    (key.sign msg randomizer).value = (.error .keyExhausted, key) := by
  simp only [sign, read, reserve, dif_neg used]
  rfl

theorem Sound.value_sign (sound : key.Sound) {msg : Bytes} {randomizer : Option Bytes}
    {c : Option (Octets mode.n)} (read : mode.readRandomizer randomizer = .ok c)
    (unused : key.q < mode.leaves) :
    (key.sign msg randomizer).value = (.ok (key.signNext unused msg c), key.advance) := by
  simp only [sign, read, reserve, dif_pos unused, Logged.value_bind, Logged.value_pure,
    SharedKey.advance, sound.cached]
  rfl

end SharedKey

end HashSig.ManyTime
