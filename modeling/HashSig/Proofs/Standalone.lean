import HashSig.Proofs.Chain
import HashSig.Proofs.Encoding

/-! One-time keys that stand alone.

A one-time key need not be the leaf of a tree: any word may be its number. Whoever has
its public key and a signature as bytes accepts the signature if it recovers the key
(`verified_encode_iff`), and the signatures that the key makes do (`PrivateKey.agrees`).
-/

set_option autoImplicit false

namespace HashSig.OneTime

variable {mode : Mode}

/-- The key and the signature that the bytes are read as agree on the message. -/
def Verified (mode : Mode) (publicKey msg signature : Bytes) : Prop :=
  ∃ key s, PublicKey.decode mode publicKey = .ok key ∧ Signature.decode mode signature = .ok s ∧
    key.verify msg s = .ok ()

theorem PublicKey.verify_eq_ok_iff {key : PublicKey mode} {msg : Bytes} {s : Signature mode} :
    key.verify msg s = .ok () ↔ s.recover key.id key.q msg = key := by
  rw [verify]
  constructor
  · intro accepted
    split at accepted
    · next same => exact PublicKey.ext rfl rfl same.symm
    · cases accepted
  · intro recovered
    exact if_pos (congrArg k recovered).symm

theorem verified_encode_iff (registered : mode.Registered) {key : PublicKey mode} {msg : Bytes}
    {s : Signature mode} :
    Verified mode key.encode msg s.encode ↔ s.recover key.id key.q msg = key := by
  rw [← PublicKey.verify_eq_ok_iff]
  constructor
  · rintro ⟨key', s', readKey, readSignature, accepted⟩
    cases (PublicKey.decode_encode registered key).symm.trans readKey
    cases (Signature.decode_encode registered s).symm.trans readSignature
    exact accepted
  · intro accepted
    exact ⟨key, s, key.decode_encode registered, s.decode_encode registered, accepted⟩

namespace PrivateKey

/-- What signer and verifier make of `msg`, with the randomizer `c`, is the same. Each of
them hashes its own part of every chain. -/
structure Agrees (key : PrivateKey mode) (q : UInt32) (id : Identifier) (msg : Bytes)
    (c : Octets mode.n) : Prop where
  randomizer : (key.sign msg c).c = c
  length : (key.sign msg c).y.length = mode.chains
  ends : (key.sign msg c).ends id q msg = key.ends
  recovers : (key.sign msg c).recover id q msg = key.publicKey
  q_eq : key.publicKey.q = q
  id_eq : key.publicKey.id = id
  verified : Verified mode key.publicKey.encode msg (key.sign msg c).encode

theorem agrees (registered : mode.Registered) (key : PrivateKey mode) (msg : Bytes) (c : Octets mode.n) :
    key.Agrees key.q key.id msg c where
  randomizer := rfl
  length := (key.sign msg c).y_length
  ends := key.ends_sign msg c
  recovers := key.recover_sign msg c
  q_eq := rfl
  id_eq := rfl
  verified := (verified_encode_iff registered).2 (key.recover_sign msg c)

theorem ofSeed_bytes (q : UInt32) (id : Identifier) (seed : Octets mode.n) :
    ofSeed mode q id seed.bytes = .ok (derive q id seed) := by
  rw [ofSeed, Octets.ofBytes?_bytes]

end PrivateKey

/-- Every seed of the length of a hash, given or drawn, makes a key for any number and
identifier. Its signatures recover its public key, and are accepted once both are sent. -/
theorem signatures_agree (registered : mode.Registered) (q : UInt32) (id : Identifier) :
    (∀ seed : Bytes, seed.length = mode.n →
      ∃ key, PrivateKey.ofSeed mode q id seed = .ok key ∧ ∀ msg c, key.Agrees q id msg c) ∧
    ∀ source : ByteStream,
      let key := PrivateKey.generate mode q id source
      PrivateKey.ofSeed mode q id (source.take mode.n).bytes = .ok key ∧ ∀ msg c, key.Agrees q id msg c := by
  have seeded (seed : Octets mode.n) (msg : Bytes) (c : Octets mode.n) :
      (PrivateKey.derive q id seed : PrivateKey mode).Agrees q id msg c :=
    PrivateKey.agrees registered _ msg c
  constructor
  · intro seed length
    exact ⟨_, PrivateKey.ofSeed_bytes q id ⟨seed, length⟩, seeded _⟩
  · intro source key
    exact ⟨PrivateKey.ofSeed_bytes q id _, seeded _⟩

theorem signatures_agree_lastNumber :
    let mode := ParameterSet.mode ⟨.n24, .w8⟩
    let seed : Bytes := List.replicate 24 0
    mode.Registered ∧ seed.length = mode.n ∧
      ∃ key, PrivateKey.ofSeed mode 0xffffffff (Octets.zero 16) seed = .ok key ∧
        key.publicKey.q = 0xffffffff ∧
        Verified mode key.publicKey.encode [1] (key.sign [1] (Octets.zero 24)).encode := by
  intro mode seed
  have registered : mode.Registered := ParameterSet.registered_modeWith _ _
  obtain ⟨key, made, agrees⟩ := (signatures_agree registered 0xffffffff (Octets.zero 16)).1 seed rfl
  have agrees := agrees [1] (Octets.zero 24)
  exact ⟨registered, rfl, key, made, agrees.q_eq, agrees.verified⟩

end HashSig.OneTime
