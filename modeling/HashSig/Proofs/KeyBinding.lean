import HashSig.Proofs.Decoding
import HashSig.Proofs.PathBinding

/-! What follows from two public keys that accept one signature.

For each identifier there is one root to which a signature climbs, so keys with the same
identifier are equal (`PublicKey.eq_of_accepted`). The root is itself a hash, of an input
that begins with the identifier (`PublicKey.exists_apply_eq_root`), so keys with the same
root and different identifiers have hashed different strings to it
(`PublicKey.collide_of_accepted`). The typecodes are not hashed, but a signature has its
own, and a key of other sets cannot read it (`sets_eq_of_encode_eq`).
-/

set_option autoImplicit false

namespace HashSig

@[simp] theorem HashInput.owner_joining {n : Nat} (id : Identifier) (r : UInt32)
    (value sibling : Octets n) : (joining id r value sibling).owner = id := by
  rw [joining]
  split <;> rfl

namespace ManyTime

/-! ## Keys of one mode -/

variable {mode : Mode} {id : Identifier}

-- Each value of a climb is a hash for the key that the climb is for, the last one too.
theorem Mode.exists_apply_eq_climb {start : HashInput mode.n} (owned : start.owner = id) (r : UInt32)
    (path : List (Octets mode.n)) :
    ∃ last ∈ start :: (mode.climbHashed id r (mode.hash.apply start) path).inputs,
      last.owner = id ∧ mode.hash.apply last = mode.climb id r (mode.hash.apply start) path := by
  induction path generalizing start r with
  | nil => exact ⟨start, List.mem_cons_self, owned, rfl⟩
  | cons sibling path ih =>
    rw [climb_cons, inputs_climbHashed_cons]
    obtain ⟨last, member, found⟩ := ih (HashInput.owner_joining id r (mode.hash.apply start) sibling) (r / 2)
    exact ⟨last, List.mem_cons_of_mem _ member, found⟩

namespace PublicKey

variable {key other : PublicKey mode} {s : Signature mode} {msg : Bytes}

theorem exists_apply_eq_root (accepted : key.check msg s = .ok ()) :
    ∃ last ∈ (key.checkHashed msg s).inputs, last.owner = key.id ∧ mode.hash.apply last = key.root := by
  obtain ⟨last, member, owner, hash⟩ := Mode.exists_apply_eq_climb
    (show (s.leafInput key.id msg).owner = key.id from rfl) s.leaf.node s.path
  have hashed := List.cons_subset.2 ⟨leafInput_mem_inputs, key.climb_inputs_subset msg s⟩
  rw [← Signature.recover_eq_climb, ← check_eq_ok_iff.1 accepted] at hash
  exact ⟨last, hashed member, owner, hash⟩

theorem eq_of_accepted (accepted : key.check msg s = .ok ()) (again : other.check msg s = .ok ())
    (same : key.id = other.id) : key = other := by
  have root := check_eq_ok_iff.1 accepted
  rw [same, ← check_eq_ok_iff.1 again] at root
  exact PublicKey.ext same root

theorem collide_of_accepted (accepted : key.check msg s = .ok ()) (again : other.check msg s = .ok ())
    (same : key.root = other.root) (different : key.id ≠ other.id) :
    mode.hash.Collide (key.checkHashed msg s).inputs (other.checkHashed msg s).inputs := by
  obtain ⟨a, inFirst, ofKey, toRoot⟩ := exists_apply_eq_root accepted
  obtain ⟨b, inSecond, ofOther, toSame⟩ := exists_apply_eq_root again
  by_contra free
  have encoded := HashFunction.encode_eq_of_apply_eq free inFirst inSecond
    (toRoot.trans (same.trans toSame.symm))
  have owners := (HashInput.fields_eq_of_encode encoded).1
  exact different (ofKey.symm.trans (owners.trans ofOther))

/-- A hash that tells nothing apart lets one signature be accepted for two identifiers. -/
example : flatMode.hash.Collide
    ((⟨Octets.zero 16, Octets.zero 32⟩ : PublicKey flatMode).checkHashed [0] (blankSignature ⟨1, by decide⟩)).inputs
    ((⟨⟨List.replicate 16 1, rfl⟩, Octets.zero 32⟩ : PublicKey flatMode).checkHashed [0]
      (blankSignature ⟨1, by decide⟩)).inputs :=
  collide_of_accepted (by decide +kernel) (by decide +kernel) rfl (by decide)

end PublicKey

/-! ## What the verifier of byte strings hashes -/

/-- A byte string that was hashed, and to how many bytes. -/
structure Digested where
  size : HashSize
  message : Bytes

namespace Digested

def digest (H : Digest) (d : Digested) : Bytes :=
  ((HashFunction.ofDigest H d.size).digest d.message).bytes

/-- Of two lists each has a byte string that differs from the other's and has the same hash. -/
def Collide (H : Digest) (first second : List Digested) : Prop :=
  ∃ a ∈ first, ∃ b ∈ second, a.message ≠ b.message ∧ a.digest H = b.digest H

end Digested

def digested {mode : Mode} (inputs : List (HashInput mode.n)) : List Digested :=
  inputs.map fun input => ⟨mode.hash.size, input.encode⟩

def Mode.verifyBytesHashed (mode : Mode) (publicKey msg signature : Bytes) :
    Hashed mode.n (Except Error Unit) :=
  match PublicKey.decode mode publicKey, Signature.decode mode signature with
  | .ok key, .ok s => key.checkHashed msg s
  | .ok _, .error e => pure (.error e)
  | .error e, _ => pure (.error e)

/-- Judges as `verifyWith` does, and gives what was hashed to do so. -/
def verifyHashed (H : Digest) (publicKey msg signature : Bytes) : Except Error Unit × List Digested :=
  match readParameterSets publicKey with
  | .error e => (.error e, [])
  | .ok (set, oneTime) =>
    if set.size = oneTime.size then
      let judged := (set.modeWith H oneTime).verifyBytesHashed publicKey msg signature
      (judged.value, digested judged.inputs)
    else
      (.error (.incompatibleParameters set.typecode oneTime.typecode), [])

theorem Mode.value_verifyBytesHashed (publicKey msg signature : Bytes) :
    (mode.verifyBytesHashed publicKey msg signature).value = mode.verifyBytes publicKey msg signature := by
  rw [verifyBytesHashed, verifyBytes]
  cases PublicKey.decode mode publicKey with
  | error e => rfl
  | ok key =>
    cases Signature.decode mode signature with
    | error e => rfl
    | ok s => exact PublicKey.value_checkHashed

theorem verifyHashed_fst (H : Digest) (publicKey msg signature : Bytes) :
    (verifyHashed H publicKey msg signature).1 = (verifyWith H publicKey msg signature).value := by
  rw [verifyHashed, verifyWith]
  cases readParameterSets publicKey with
  | error e => rfl
  | ok sets =>
    obtain ⟨set, oneTime⟩ := sets
    by_cases sizes : set.size = oneTime.size
    · simp only [if_pos sizes, Logged.value_pure, Mode.value_verifyBytesHashed]
    · simp only [if_neg sizes]
      rfl

variable {H : Digest} {set : ParameterSet} {oneTime : OneTime.ParameterSet}

theorem verifyHashed_encode (sizes : set.size = oneTime.size) (key : PublicKey (set.modeWith H oneTime))
    (msg : Bytes) (s : Signature (set.modeWith H oneTime)) :
    (verifyHashed H key.encode msg s.encode).2 = digested (key.checkHashed msg s).inputs := by
  have registered := set.registered_modeWith H oneTime
  simp only [verifyHashed, PublicKey.encode, readParameterSets_append, if_pos sizes, Mode.verifyBytesHashed]
  rw [← PublicKey.encode, key.decode_encode registered, s.decode_encode registered]

theorem Digested.Collide.of_inputs {first second : List (HashInput (set.modeWith H oneTime).n)}
    (collide : (set.modeWith H oneTime).hash.Collide first second) :
    Collide H (digested first) (digested second) := by
  obtain ⟨a, inFirst, b, inSecond, different, same⟩ := collide
  obtain ⟨input, member, rfl⟩ := List.mem_map.1 inFirst
  obtain ⟨other, found, rfl⟩ := List.mem_map.1 inSecond
  exact ⟨_, List.mem_map_of_mem member, _, List.mem_map_of_mem found, different, congrArg Octets.bytes same⟩

/-! ## Keys as byte strings -/

def identifierOf (publicKey : Bytes) : Bytes := (publicKey.drop 8).take 16

def rootOf (publicKey : Bytes) : Bytes := publicKey.drop 24

theorem PublicKey.identifierOf_encode (key : PublicKey mode) : identifierOf key.encode = key.id.bytes := by
  rw [identifierOf, encode, List.drop_left' mode.length_header, List.take_left' key.id.length_eq]

theorem PublicKey.rootOf_encode (key : PublicKey mode) : rootOf key.encode = key.root.bytes := by
  have front : (mode.header ++ key.id.bytes).length = 24 := by
    rw [List.length_append, mode.length_header, key.id.length_eq]
  rw [rootOf, encode, ← List.append_assoc, List.drop_left' front]

/-- The typecodes of the sets stand in the key and in the signature. -/
structure Names (set : ParameterSet) (oneTime : OneTime.ParameterSet) (publicKey signature : Bytes) :
    Prop where
  key_manyTime : publicKey.uint32At? 0 = some set.typecode
  key_oneTime : publicKey.uint32At? 4 = some oneTime.typecode
  signature_oneTime : signature.uint32At? 4 = some oneTime.typecode
  signature_manyTime : signature.uint32At? (4 + oneTime.signatureLength) = some set.typecode

theorem names_encode (key : PublicKey (set.modeWith H oneTime))
    (s : Signature (set.modeWith H oneTime)) : Names set oneTime key.encode s.encode where
  key_manyTime := Bytes.uint32At?_of_layout [] _ rfl rfl
  key_oneTime := Bytes.uint32At?_of_layout (Bytes.ofUInt32 set.typecode) _ rfl rfl
  signature_oneTime := s.uint32At?_encode_oneTime
  signature_manyTime := s.uint32At?_encode_manyTime

-- Where the second typecode stands depends on the first.
theorem sets_eq_of_encode_eq {otherSet : ParameterSet} {otherOneTime : OneTime.ParameterSet}
    {s : Signature (set.modeWith H oneTime)} {t : Signature (otherSet.modeWith H otherOneTime)}
    (same : s.encode = t.encode) : set = otherSet ∧ oneTime = otherOneTime := by
  have inner := s.uint32At?_encode_oneTime
  rw [same, t.uint32At?_encode_oneTime] at inner
  obtain rfl := OneTime.ParameterSet.typecode_injective (Option.some.inj inner)
  have outer := s.uint32At?_encode_manyTime
  rw [same] at outer
  have both := t.uint32At?_encode_manyTime.symm.trans outer
  exact ⟨(ParameterSet.typecode_injective (Option.some.inj both)).symm, rfl⟩

/-- How two public keys compare that both accept the signature for the message. -/
structure Pinned (H : Digest) (publicKey other msg signature : Bytes) : Prop where
  length_eq : publicKey.length = other.length
  sets : ∃ (set : ParameterSet) (oneTime : OneTime.ParameterSet),
    Names set oneTime publicKey signature ∧ Names set oneTime other signature
  eq_of_identifier : identifierOf publicKey = identifierOf other → publicKey = other
  collide_of_root : rootOf publicKey = rootOf other → identifierOf publicKey ≠ identifierOf other →
    Digested.Collide H (verifyHashed H publicKey msg signature).2 (verifyHashed H other msg signature).2

theorem Names.take_eq {publicKey signature : Bytes} (names : Names set oneTime publicKey signature) :
    publicKey.take 8 = Bytes.ofUInt32 set.typecode ++ Bytes.ofUInt32 oneTime.typecode := by
  have front := Bytes.ofUInt32_append_drop names.key_manyTime
  rw [← Bytes.ofUInt32_append_drop names.key_oneTime, ← List.append_assoc] at front
  exact (congrArg (List.take 8) front.symm).trans (List.take_left' rfl)

theorem Pinned.take_eq {publicKey other msg signature : Bytes}
    (pinned : Pinned H publicKey other msg signature) : publicKey.take 8 = other.take 8 := by
  obtain ⟨set, oneTime, first, second⟩ := pinned.sets
  rw [first.take_eq, second.take_eq]

theorem pinned_of_verified {publicKey other msg signature : Bytes}
    (accepted : (verifyWith H publicKey msg signature).value = .ok ())
    (again : (verifyWith H other msg signature).value = .ok ()) :
    Pinned H publicKey other msg signature := by
  obtain ⟨set, oneTime, key, s, sizes, rfl, rfl, checked⟩ := verify_eq_ok_iff.1 accepted
  obtain ⟨otherSet, otherOneTime, other, t, -, rfl, same, rechecked⟩ := verify_eq_ok_iff.1 again
  obtain ⟨rfl, rfl⟩ := sets_eq_of_encode_eq same.symm
  have read := s.decode_encode (set.registered_modeWith H oneTime)
  rw [← same, t.decode_encode (set.registered_modeWith H oneTime)] at read
  obtain rfl := Except.ok.inj read
  refine ⟨?_, ⟨set, oneTime, names_encode key t, names_encode other t⟩, ?_, ?_⟩
  · rw [key.length_encode, other.length_encode]
  · intro identifiers
    rw [key.identifierOf_encode, other.identifierOf_encode] at identifiers
    rw [PublicKey.eq_of_accepted checked rechecked (Octets.ext identifiers)]
  · intro roots identifiers
    rw [key.rootOf_encode, other.rootOf_encode] at roots
    rw [key.identifierOf_encode, other.identifierOf_encode] at identifiers
    rw [verifyHashed_encode sizes, verifyHashed_encode sizes]
    exact .of_inputs (PublicKey.collide_of_accepted checked rechecked (Octets.ext roots)
      fun same => identifiers (congrArg Octets.bytes same))

/-- Every public key that accepts what another accepts has its length and its typecodes,
which are those in the signature; with its identifier it is the same key, and with its
root and another identifier the two verifications hash different strings to one hash. So
to change the length, a typecode or the root makes an accepted signature fail, and so does
to change the identifier alone, unless the two verifications collide. -/
theorem accepted_signature_pins_key {publicKey msg signature : Bytes}
    (accepted : (verifyWith H publicKey msg signature).value = .ok ()) :
    (∀ other, (verifyWith H other msg signature).value = .ok () →
      Pinned H publicKey other msg signature) ∧
    (∀ other, other ≠ publicKey →
      other.length ≠ publicKey.length ∨ other.take 8 ≠ publicKey.take 8 ∨
        identifierOf other = identifierOf publicKey →
      (verifyWith H other msg signature).value ≠ .ok ()) ∧
    (∀ other, other ≠ publicKey → rootOf other = rootOf publicKey →
      (verifyWith H other msg signature).value ≠ .ok () ∨
        Digested.Collide H (verifyHashed H publicKey msg signature).2
          (verifyHashed H other msg signature).2) := by
  refine ⟨fun other => pinned_of_verified accepted, ?_, ?_⟩
  · rintro other different changed again
    have pinned := pinned_of_verified accepted again
    rcases changed with length | typecodes | identifier
    · exact length pinned.length_eq.symm
    · exact typecodes pinned.take_eq.symm
    · exact different (pinned.eq_of_identifier identifier.symm).symm
  · intro other different root
    by_cases again : (verifyWith H other msg signature).value = .ok ()
    · have pinned := pinned_of_verified accepted again
      refine .inr (pinned.collide_of_root root.symm fun identifier => ?_)
      exact different (pinned.eq_of_identifier identifier).symm
    · exact .inl again

theorem accepted_signature_pins_key_oneLeafLeft :
    let key := oneLeafLeft.publicHalf
    let s := oneLeafLeft.signLeaf oneLeafLeft.merkleTree ⟨31, by decide⟩ [1] none
    let renamed : PublicKey _ := { key with id := ⟨List.replicate 16 1, rfl⟩ }
    (verify key.encode [1] s.encode).value = .ok () ∧
      Pinned Sha256.digest key.encode key.encode [1] s.encode ∧
      (verify (key.encode ++ [0]) [1] s.encode).value ≠ .ok () ∧
      ((verify renamed.encode [1] s.encode).value ≠ .ok () ∨
        Digested.Collide Sha256.digest (verifyHashed Sha256.digest key.encode [1] s.encode).2
          (verifyHashed Sha256.digest renamed.encode [1] s.encode).2) := by
  intro key s renamed
  have accepted : (verify key.encode [1] s.encode).value = .ok () :=
    (verify_encode rfl key [1] s).trans (oneLeafLeft.check_signLeaf _ _ _)
  have pins := accepted_signature_pins_key accepted
  have longer : (key.encode ++ [0]).length ≠ key.encode.length := by
    rw [List.length_append]
    exact Nat.succ_ne_self _
  have moved : renamed.encode ≠ key.encode := by
    intro same
    have identifiers := congrArg identifierOf same
    rw [PublicKey.identifierOf_encode, PublicKey.identifierOf_encode] at identifiers
    exact absurd identifiers (by decide)
  have root : rootOf renamed.encode = rootOf key.encode := by
    rw [PublicKey.rootOf_encode, PublicKey.rootOf_encode]
  exact ⟨accepted, pins.1 _ accepted, pins.2.1 _ (fun same => longer (congrArg _ same)) (.inl longer),
    pins.2.2 _ moved root⟩

end ManyTime

end HashSig
