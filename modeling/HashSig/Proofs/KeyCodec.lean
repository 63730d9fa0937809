import HashSig.Proofs.Codec
import HashSig.Proofs.Refusal

/-! Signing keys and their bytes stand for each other.

A signing key is written as its lasting part, and read back with its tree or without
it. Every key that can come about is read back as it was, exhausted keys too
(`SigningKey.Sound.returns`), and a string is read only if it is what the key writes
(`PrivateKey.encode_of_decode`). The two readers differ in nothing but the tree, and
report the first of one list of checks (`Origin.reports_start`).
-/

set_option autoImplicit false

namespace HashSig.ManyTime

variable {mode : Mode}

/-! ## The lasting part -/

namespace PrivateKey

theorem encode_of_decode {b : Bytes} {key : PrivateKey mode} (read : decode mode b = .ok key) :
    key.encode = b := by
  rw [decode] at read
  obtain ⟨_, header, read⟩ := bind_eq_ok_iff.1 read
  split at read
  · next exact =>
    dsimp only at read
    split at read
    · cases read
      have whole : b.length = 28 + mode.n := exact
      have seed : (b.drop 28).take mode.n = b.drop 28 := by
        apply List.take_of_length_le
        rw [List.length_drop]
        omega
      rw [encode]
      dsimp only
      rw [Octets.bytes_slice b 28, seed, Octets.slice_append_drop b 12, Bytes.ofUInt32_uint32At,
        ← List.drop_drop (i := 4) (j := 8), List.take_append_drop]
      exact Mode.header_append_drop header
    · cases read
  · cases read

theorem encode_injective {first second : PrivateKey mode} (same : first.encode = second.encode) :
    first = second := by
  obtain ⟨-, same⟩ := List.append_inj same rfl
  obtain ⟨q, same⟩ := List.append_inj same rfl
  obtain ⟨id, seed⟩ := List.append_inj same (first.id.length_eq.trans second.id.length_eq.symm)
  exact PrivateKey.ext (Bytes.ofUInt32_injective q) (Octets.ext id) (Octets.ext seed)

end PrivateKey

theorem SigningKey.beq_iff {first second : SigningKey mode} :
    (first == second) = true ↔ first.toPrivateKey = second.toPrivateKey := by
  change (first.toPrivateKey == second.toPrivateKey) = true ↔ _
  exact beq_iff_eq

theorem SigningKey.beq_iff_encode {first second : SigningKey mode} :
    (first == second) = true ↔ first.encode = second.encode := by
  rw [beq_iff]
  constructor
  · intro same
    rw [same]
  · exact PrivateKey.encode_injective

/-! ## Checks -/

/-- What is asked of the bytes of a private key, in order. -/
def Mode.privateKeyChecks (mode : Mode) (b : Bytes) : List Check :=
  let manyTime := b.wordAt 0
  let oneTime := b.wordAt 4
  [⟨b.length < 8, .invalidPrivateKeyEncoding⟩,
    ⟨Standard.treeRow? manyTime.toNat = none, .unsupportedParameter manyTime⟩,
    ⟨manyTime ≠ mode.typecode, .wrongAlgorithm mode.typecode manyTime⟩,
    ⟨Standard.oneTimeRow? oneTime.toNat = none, .unsupportedParameter oneTime⟩,
    ⟨oneTime ≠ mode.oneTime.typecode, .wrongAlgorithm mode.oneTime.typecode oneTime⟩,
    ⟨b.length ≠ 28 + mode.n ∨ 2 ^ mode.height < (b.wordAt 8).toNat, .invalidPrivateKeyEncoding⟩]

theorem PrivateKey.reports_decode (mode : Mode) (b : Bytes) :
    Reports (mode.privateKeyChecks b) Succeeds (decode mode b) := by
  refine (mode.reports_expectHeader .invalidPrivateKeyEncoding b).bind fun _ _ => ?_
  have word (fits : 8 + 4 ≤ b.length) : b.uint32At 8 fits = b.wordAt 8 := by
    rw [Bytes.wordAt, Bytes.uint32At?_of_le fits]
    rfl
  have inRange : b.wordAt 8 ≤ mode.leaves ↔ ¬ 2 ^ mode.height < (b.wordAt 8).toNat := by
    rw [UInt32.le_iff_toNat_le, mode.toNat_leaves, Nat.not_lt]
  refine .cons (fun wrong => ?_) fun right => ?_
  · split
    · next exact =>
      dsimp only
      rw [word, if_neg fun below => inRange.1 below (wrong.resolve_left (not_not_intro exact))]
      rfl
    · rfl
  · obtain ⟨exact, below⟩ := not_or.1 right
    rw [dif_pos (of_not_not exact)]
    dsimp only
    rw [word, if_pos (inRange.2 below)]
    exact .nil ⟨_, rfl⟩

/-! ## Reading and writing -/

namespace Origin

theorem value_start_bytes (b : Bytes) (withTree : Bool) :
    ((Origin.bytes b withTree).start mode).value = (fun key : PrivateKey mode =>
      ⟨key, if withTree then some key.merkleTree else none⟩) <$> PrivateKey.decode mode b := by
  cases withTree <;> simp only [start, SigningKey.load, SigningKey.loadWithoutTree] <;>
    cases PrivateKey.decode mode b <;> rfl

theorem reports_start (mode : Mode) (b : Bytes) (withTree : Bool) :
    Reports (mode.privateKeyChecks b) Succeeds ((Origin.bytes b withTree).start mode).value := by
  rw [value_start_bytes]
  exact (PrivateKey.reports_decode mode b).map _

end Origin

theorem Origin.agree_start (b : Bytes) (withTree other : Bool) :
    Agree (fun first second => (first == second) = true) ((Origin.bytes b withTree).start mode).value
      ((Origin.bytes b other).start mode).value := by
  rw [value_start_bytes, value_start_bytes]
  cases PrivateKey.decode mode b with
  | error e => exact .error
  | ok key => exact .ok (SigningKey.beq_iff.2 rfl)

/-- The key is as long as it has to be, and is read from its bytes as it was, with its
tree or without. -/
structure SigningKey.Returns (key : SigningKey mode) : Prop where
  length : key.encode.length = 28 + mode.n
  read : ∀ withTree, ∃ again, ((Origin.bytes key.encode withTree).start mode).value = .ok again ∧
    (again == key) = true ∧ again.q = key.q ∧ again.remaining = key.remaining ∧
    again.publicKey.value.1 = key.publicKey.value.1 ∧ again.encode = key.encode

theorem SigningKey.Sound.value_publicKey {key : SigningKey mode} (sound : key.Sound) :
    key.publicKey.value.1 = key.publicHalf := by
  simp only [publicKey, Logged.value_bind, sound.value_withTree]
  rfl

theorem SigningKey.Sound.returns (registered : mode.Registered) {key : SigningKey mode} (sound : key.Sound) :
    key.Returns := by
  refine ⟨key.length_encode, fun withTree => ?_⟩
  have started := Origin.start_encode registered sound.inRange withTree
  refine ⟨_, started, SigningKey.beq_iff.2 rfl, rfl, rfl, ?_, rfl⟩
  rw [sound.value_publicKey, (Origin.sound_start started).value_publicKey]

/-- A signing key that comes about in a mode: one that was made or read, after any run
of operations. -/
def SigningKey.Reachable (key : SigningKey mode) : Prop :=
  ∃ origin first ops, (Origin.start mode origin).value = .ok first ∧
    ((Key.signing first).run ops).value.2 = .signing key

theorem SigningKey.Reachable.sound {key : SigningKey mode} (reachable : key.Reachable) : key.Sound := by
  obtain ⟨origin, first, ops, started, reached⟩ := reachable
  have sound : (Key.signing first).Sound := Origin.sound_start started
  have counted := sound.run_counted ops
  rw [reached] at counted
  exact counted.sound

/-- In a mode with registered typecodes every signing key that comes about is read back
from its bytes. No other string is read, the readers with and without a tree agree on
every string, keys are equal exactly if their bytes are, and a string that is refused
is refused for the first check that it fails. -/
theorem private_keys_match_bytes (registered : mode.Registered) :
    (∀ key : SigningKey mode, key.Reachable → key.q ≤ mode.leaves ∧ key.Returns) ∧
    (∀ q ≤ mode.leaves, ∀ id seed, ∃ key : SigningKey mode, key.Reachable ∧ key.toPrivateKey = ⟨q, id, seed⟩) ∧
    (∀ b withTree, ∀ key : SigningKey mode, ((Origin.bytes b withTree).start mode).value = .ok key →
      key.encode = b ∧ key.q ≤ mode.leaves) ∧
    (∀ b, Agree (fun first second => (first == second) = true) ((Origin.bytes b true).start mode).value
      ((Origin.bytes b false).start mode).value) ∧
    (∀ first second : SigningKey mode, (first == second) = true ↔ first.encode = second.encode) ∧
    ∀ b withTree, Reports (mode.privateKeyChecks b) Succeeds ((Origin.bytes b withTree).start mode).value := by
  refine ⟨fun key reachable => ?_, fun q inRange id seed => ?_, fun b withTree key read => ?_, ?_, ?_, ?_⟩
  · exact ⟨reachable.sound.inRange, reachable.sound.returns registered⟩
  · let key : PrivateKey mode := ⟨q, id, seed⟩
    have started := Origin.start_encode registered (show key.q ≤ mode.leaves from inRange) false
    exact ⟨_, ⟨_, _, [], started, rfl⟩, rfl⟩
  · have decoded := Origin.decode_of_start read
    exact ⟨PrivateKey.encode_of_decode decoded, PrivateKey.inRange_of_decode decoded⟩
  · exact fun b => Origin.agree_start b true false
  · exact fun _ _ => SigningKey.beq_iff_encode
  · exact fun b withTree => Origin.reports_start mode b withTree

theorem private_keys_match_bytes_exhausted :
    let mode := ParameterSet.mode ⟨.n24, .h5⟩ ⟨.n24, .w8⟩
    let key : SigningKey mode := ⟨⟨32, Octets.zero 16, Octets.zero 24⟩, none⟩
    mode.Registered ∧ key.Reachable ∧ key.isExhausted ∧ key.Returns ∧
      ((Origin.bytes key.encode false).start mode).value = .ok key ∧
      Reports (mode.privateKeyChecks (key.encode ++ [0])) Succeeds
        ((Origin.bytes (key.encode ++ [0]) true).start mode).value := by
  intro mode key
  have registered : mode.Registered := ParameterSet.registered_modeWith _ _ _
  have started := Origin.start_encode registered (show key.q ≤ mode.leaves by decide) false
  have reachable : key.Reachable := ⟨_, key, [], started, rfl⟩
  obtain ⟨returns, -, -, -, -, reports⟩ := private_keys_match_bytes registered
  exact ⟨registered, reachable, by decide, (returns key reachable).2, started, reports _ true⟩

end HashSig.ManyTime
