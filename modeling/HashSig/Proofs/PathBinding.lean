import HashSig.Proofs.Acceptance
import HashSig.Proofs.Binding
import HashSig.Proofs.LeafUse

/-! What follows from two signatures that are accepted under one key.

Unless the two checks hash different strings to one hash, two climbs that begin at
one node and meet in the root were together from the start (`Mode.eq_of_climb_eq`),
and two climbs with one path that begin at different nodes cannot meet
(`Mode.climb_ne_of_ne`): where the paths join, both children of a node would have
the value of the path there, although their numbers were hashed.
-/

set_option autoImplicit false

namespace HashSig

namespace HashInput

variable {n : Nat}

def owner : HashInput n → Identifier
  | .chainStart id _ _ _ | .randomizer id _ _ | .chainStep id _ _ _ _ | .publicValue id _ _
  | .message id _ _ _ | .leaf id _ _ | .interior id _ _ _ => id

def number : HashInput n → UInt32
  | .chainStart _ q _ _ | .randomizer _ q _ | .chainStep _ q _ _ _ | .publicValue _ q _
  | .message _ q _ _ => q
  | .leaf _ r _ | .interior _ r _ _ => r

/-- The two bytes that number a chain or name the kind of input. -/
def index : HashInput n → UInt16
  | .chainStart _ _ i _ | .chainStep _ _ i _ _ => i
  | .randomizer _ _ _ => randomizerIndex
  | .publicValue _ _ _ => publicValueTag
  | .message _ _ _ _ => messageTag
  | .leaf _ _ _ => leafTag
  | .interior _ _ _ _ => interiorTag

def body : HashInput n → Bytes
  | .chainStart _ _ _ seed | .randomizer _ _ seed => seedByte :: seed.bytes
  | .chainStep _ _ _ j value => j :: value.bytes
  | .publicValue _ _ ends => Octets.join ends
  | .message _ _ c msg => c.bytes ++ msg
  | .leaf _ _ key => key.bytes
  | .interior _ _ left right => left.bytes ++ right.bytes

theorem encode_eq (input : HashInput n) :
    input.encode = input.owner.bytes ++
      (Bytes.ofUInt32 input.number ++ (Bytes.ofUInt16 input.index ++ input.body)) := by
  cases input <;> rfl

theorem fields_eq_of_encode {a b : HashInput n} (same : a.encode = b.encode) :
    a.owner = b.owner ∧ a.number = b.number ∧ a.index = b.index ∧ a.body = b.body := by
  rw [encode_eq, encode_eq] at same
  obtain ⟨owners, same⟩ := List.append_inj same (by rw [a.owner.length_eq, b.owner.length_eq])
  obtain ⟨numbers, same⟩ := List.append_inj same rfl
  obtain ⟨indices, bodies⟩ := List.append_inj same rfl
  exact ⟨Octets.ext owners, Bytes.ofUInt32_injective numbers, Bytes.ofUInt16_injective indices, bodies⟩

theorem number_eq_of_encode {a b : HashInput n} (same : a.encode = b.encode) :
    a.number = b.number :=
  (fields_eq_of_encode same).2.1

theorem key_eq_of_encode_leaf {id : Identifier} {r : UInt32} {v w : Octets n}
    (same : (leaf id r v).encode = (leaf id r w).encode) : v = w := by
  simp only [encode, List.append_cancel_left_eq] at same
  exact Octets.ext same

theorem children_eq_of_encode_interior {id : Identifier} {r : UInt32} {a b c d : Octets n}
    (same : (interior id r a b).encode = (interior id r c d).encode) : a = c ∧ b = d := by
  simp only [encode, List.append_cancel_left_eq] at same
  obtain ⟨left, right⟩ := List.append_inj same (by rw [a.length_eq, c.length_eq])
  exact ⟨Octets.ext left, Octets.ext right⟩

@[simp] theorem number_joining (id : Identifier) (r : UInt32) (value sibling : Octets n) :
    (joining id r value sibling).number = r / 2 := by
  rw [joining]
  split <;> rfl

theorem eq_of_encode_joining {id : Identifier} {r : UInt32} {v w x y : Octets n}
    (same : (joining id r v x).encode = (joining id r w y).encode) : v = w ∧ x = y := by
  simp only [joining] at same
  split at same
  · exact (children_eq_of_encode_interior same).symm
  · exact children_eq_of_encode_interior same

-- Of two siblings one has `x` on its left and the other on its right, so both values
-- are `x`.
theorem eq_of_encode_joining_siblings {id : Identifier} {r t : UInt32} {v w x : Octets n}
    (different : r ≠ t) (parents : r / 2 = t / 2)
    (same : (joining id r v x).encode = (joining id t w x).encode) : v = w := by
  have rHalf : (r / 2).toNat = r.toNat / 2 := UInt32.toNat_div r 2
  have tHalf : (t / 2).toNat = t.toNat / 2 := UInt32.toNat_div t 2
  have numbers : r.toNat ≠ t.toNat := mt UInt32.toNat_inj.1 different
  rw [joining, joining, parents] at same
  rw [parents] at rHalf
  by_cases left : r % 2 = 1 <;> by_cases right : t % 2 = 1
  · rw [ManyTime.mod_two_eq_one_iff] at left right
    omega
  · rw [if_pos left, if_neg right] at same
    obtain ⟨first, last⟩ := children_eq_of_encode_interior same
    exact last.trans first
  · rw [if_neg left, if_pos right] at same
    obtain ⟨first, last⟩ := children_eq_of_encode_interior same
    exact first.trans last
  · rw [ManyTime.mod_two_eq_one_iff] at left right
    omega

end HashInput

namespace ManyTime

variable {mode : Mode} {id : Identifier}

/-! ## Climbs that meet -/

namespace Mode

variable {first second : List (HashInput mode.n)}

theorem eq_of_climb_eq (free : ¬ mode.hash.Collide first second) {r : UInt32} {v w : Octets mode.n}
    {path other : List (Octets mode.n)} (lengths : path.length = other.length)
    (inFirst : (mode.climbHashed id r v path).inputs ⊆ first)
    (inSecond : (mode.climbHashed id r w other).inputs ⊆ second)
    (same : mode.climb id r v path = mode.climb id r w other) : v = w ∧ path = other := by
  induction path generalizing r v w other with
  | nil =>
    cases other with
    | nil => exact ⟨same, rfl⟩
    | cons _ _ => cases lengths
  | cons x path ih =>
    cases other with
    | nil => cases lengths
    | cons y other =>
      -- The parents have one value, so by what is hashed for them the children do too.
      rw [inputs_climbHashed_cons, List.cons_subset] at inFirst inSecond
      rw [climb_cons, climb_cons] at same
      obtain ⟨parents, paths⟩ := ih (Nat.succ.inj lengths) inFirst.2 inSecond.2 same
      have encoded := HashFunction.encode_eq_of_apply_eq free inFirst.1 inSecond.1 parents
      obtain ⟨values, siblings⟩ := HashInput.eq_of_encode_joining encoded
      exact ⟨values, by rw [siblings, paths]⟩

theorem climb_ne_of_ne (free : ¬ mode.hash.Collide first second) {path : List (Octets mode.n)}
    {a b : HashInput mode.n} (aFirst : a ∈ first) (bSecond : b ∈ second)
    (different : a.number ≠ b.number)
    (aDepth : AtDepth path.length a.number) (bDepth : AtDepth path.length b.number)
    (inFirst : (mode.climbHashed id a.number (mode.hash.apply a) path).inputs ⊆ first)
    (inSecond : (mode.climbHashed id b.number (mode.hash.apply b) path).inputs ⊆ second) :
    mode.climb id a.number (mode.hash.apply a) path ≠
      mode.climb id b.number (mode.hash.apply b) path := by
  induction path generalizing a b with
  | nil => exact absurd (aDepth.eq_one.trans bDepth.eq_one.symm) different
  | cons x path ih =>
    rw [inputs_climbHashed_cons, List.cons_subset] at inFirst inSecond
    rw [climb_cons, climb_cons]
    by_cases parents : a.number / 2 = b.number / 2
    · -- From the common parent on the climbs are one, so the two values are the same;
      -- but they are hashes of inputs with different numbers.
      intro same
      rw [parents] at inFirst same
      obtain ⟨joined, -⟩ := eq_of_climb_eq free rfl inFirst.2 inSecond.2 same
      have encoded := HashFunction.encode_eq_of_apply_eq free inFirst.1 inSecond.1 joined
      have values := HashInput.eq_of_encode_joining_siblings different parents encoded
      have inputs := HashFunction.encode_eq_of_apply_eq free aFirst bSecond values
      exact different (HashInput.number_eq_of_encode inputs)
    · have up := ih inFirst.1 inSecond.1
      simp only [HashInput.number_joining] at up
      exact up parents aDepth.half bDepth.half inFirst.2 inSecond.2

end Mode

/-! ## Accepted signatures -/

namespace PublicKey

variable {key : PublicKey mode} {s t : Signature mode} {msg other : Bytes}

-- Signatures that are accepted under one key climb to one root.
theorem climb_eq_of_check (accepted : key.check msg s = .ok ()) (again : key.check other t = .ok ()) :
    mode.climb key.id s.leaf.node (mode.hash.apply (s.leafInput key.id msg)) s.path =
      mode.climb key.id t.leaf.node (mode.hash.apply (t.leafInput key.id other)) t.path := by
  rw [← Signature.recover_eq_climb, ← Signature.recover_eq_climb]
  exact (check_eq_ok_iff.1 accepted).symm.trans (check_eq_ok_iff.1 again)

theorem eq_of_check
    (free : ¬ mode.hash.Collide (key.checkHashed msg s).inputs (key.checkHashed other t).inputs)
    (accepted : key.check msg s = .ok ()) (again : key.check other t = .ok ()) (leaf : s.leaf = t.leaf) :
    s.oneTime.recover key.id s.leaf.index msg = t.oneTime.recover key.id t.leaf.index other ∧
      s.path = t.path := by
  have roots := climb_eq_of_check accepted again
  have inFirst := key.climb_inputs_subset msg s
  have inSecond := key.climb_inputs_subset other t
  rw [leaf] at roots inFirst
  obtain ⟨leaves, paths⟩ :=
    Mode.eq_of_climb_eq free (s.path_length.trans t.path_length.symm) inFirst inSecond roots
  have encoded := HashFunction.encode_eq_of_apply_eq free leafInput_mem_inputs leafInput_mem_inputs leaves
  rw [Signature.leafInput, Signature.leafInput, leaf] at encoded
  refine ⟨OneTime.PublicKey.ext (congrArg Leaf.index leaf) rfl ?_, paths⟩
  rw [leaf]
  exact HashInput.key_eq_of_encode_leaf encoded

theorem check_ne_ok_of_path_eq
    (free : ¬ mode.hash.Collide (key.checkHashed msg s).inputs (key.checkHashed other t).inputs)
    (accepted : key.check msg s = .ok ()) (paths : s.path = t.path) (leaves : s.leaf ≠ t.leaf) :
    key.check other t ≠ .ok () := by
  intro again
  have roots := climb_eq_of_check accepted again
  have inFirst := key.climb_inputs_subset msg s
  have inSecond := key.climb_inputs_subset other t
  have sDepth := s.atDepth_node
  have tDepth := t.atDepth_node
  rw [paths] at roots inFirst sDepth
  have nodes : s.leaf.node ≠ t.leaf.node := fun same => leaves (Leaf.node_injective same)
  exact Mode.climb_ne_of_ne free leafInput_mem_inputs leafInput_mem_inputs nodes sDepth tDepth inFirst
    inSecond roots

end PublicKey

-- Whatever is done with a key, the public key that it gives out is that of its beginning.
theorem Key.publicKey_of_run {first : SigningKey mode} (sound : (Key.signing first).Sound) {ops : List Operation}
    {key : PublicKey mode}
    (given : ((Key.run (.signing first) ops).value.2.perform .publicKey).value.1 = .publicKey key) :
    key = first.publicHalf := by
  have counted := sound.run_counted ops
  rw [counted.sound.perform_publicKey] at given
  rw [← Answer.publicKey.inj given]
  exact PrivateKey.publicHalf_congr counted.id_eq counted.seed_eq

/-- Of two signatures with one leaf that are accepted under one key, whoever made the
key, the recovered one-time keys are the same and so are the paths, or the two checks
hash different strings to one hash. So, if the key belongs to a signing key, a
signature that is accepted has the leaf's own path and recovers the leaf's own
one-time key, or its check and that of an honest signature with the leaf collide. -/
theorem accepted_leaf_unique (mode : Mode) :
    (∀ (key : PublicKey mode) (s t : Signature mode) (msg other : Bytes),
      key.check msg s = .ok () → key.check other t = .ok () → s.leaf = t.leaf →
        (s.oneTime.recover key.id s.leaf.index msg = t.oneTime.recover key.id t.leaf.index other ∧
          s.path = t.path) ∨
        mode.hash.Collide (key.checkHashed msg s).inputs (key.checkHashed other t).inputs) ∧
    (∀ (origin : Origin) (first : SigningKey mode) (ops : List Operation) (key : PublicKey mode),
      (origin.start mode).value = .ok first →
      ((Key.run (.signing first) ops).value.2.perform .publicKey).value.1 = .publicKey key →
      ∀ (s : Signature mode) (msg : Bytes), key.check msg s = .ok () →
      ∀ (other : Bytes) (c : Option (Octets mode.n)),
        let honest := first.signLeaf (Tree.generate mode first.id first.seed) s.leaf other c
        let oneTime : OneTime.PrivateKey mode.oneTime := .derive s.leaf.index first.id first.seed
        (s.oneTime.recover key.id s.leaf.index msg = oneTime.publicKey ∧
          s.path = (Tree.generate mode first.id first.seed).path s.leaf) ∨
        mode.hash.Collide (key.checkHashed msg s).inputs (key.checkHashed other honest).inputs) := by
  constructor
  · intro key s t msg other accepted again leaf
    by_cases free : mode.hash.Collide (key.checkHashed msg s).inputs (key.checkHashed other t).inputs
    · exact .inr free
    · exact .inl (PublicKey.eq_of_check free accepted again leaf)
  · intro origin first ops key started given s msg accepted other c honest oneTime
    obtain rfl := Key.publicKey_of_run (Origin.sound_start started) given
    by_cases free : mode.hash.Collide (first.publicHalf.checkHashed msg s).inputs
        (first.publicHalf.checkHashed other honest).inputs
    · exact .inr free
    · have again := first.check_signLeaf s.leaf other c
      obtain ⟨keys, paths⟩ := PublicKey.eq_of_check free accepted again rfl
      exact .inl ⟨keys.trans (oneTime.recover_sign other _), paths⟩

theorem accepted_leaf_unique_sameLeaf :
    let key : PrivateKey (ParameterSet.mode ⟨.n24, .h5⟩ ⟨.n24, .w8⟩) := oneLeafLeft
    let start : SigningKey _ := ⟨key, none⟩
    let leaf : Leaf _ := ⟨31, by decide⟩
    let s := key.signLeaf key.merkleTree leaf [1] none
    let t := key.signLeaf key.merkleTree leaf [2] (some (Octets.zero 24))
    let collide := HashFunction.Collide _ (key.publicHalf.checkHashed [1] s).inputs
      (key.publicHalf.checkHashed [2] t).inputs
    key.publicHalf.check [1] s = .ok () ∧ key.publicHalf.check [2] t = .ok () ∧ s.leaf = t.leaf ∧
      ((s.oneTime.recover key.id 31 [1] = t.oneTime.recover key.id 31 [2] ∧ s.path = t.path) ∨ collide) ∧
      ((Origin.bytes key.encode false).start _).value = .ok start ∧
      ((Key.run (.signing start) []).value.2.perform .publicKey).value.1 = .publicKey key.publicHalf ∧
      (s.path = key.merkleTree.path leaf ∨ collide) := by
  intro key start leaf s t collide
  have unique := accepted_leaf_unique (ParameterSet.mode ⟨.n24, .h5⟩ ⟨.n24, .w8⟩)
  have accepted := key.check_signLeaf leaf [1] none
  have again := key.check_signLeaf leaf [2] (some (Octets.zero 24))
  have started := Origin.start_encode
    (ParameterSet.registered_modeWith ⟨.n24, .h5⟩ Sha256.digest ⟨.n24, .w8⟩)
    (show key.q ≤ _ by decide) false
  have own := unique.2 _ start [] key.publicHalf started rfl s [1] accepted [2] (some (Octets.zero 24))
  exact ⟨accepted, again, rfl, unique.1 _ _ _ _ _ accepted again rfl, started, rfl, own.imp And.right id⟩

/-- A path leads from one leaf only: if a signature is accepted under a key, another
with the same path and a different leaf is not, whatever its one-time part and its
message, unless the two checks hash different strings to one hash. So an accepted
signature that is given another leaf is refused. -/
theorem accepted_path_pins_leaf {key : PublicKey mode} {s : Signature mode} {msg : Bytes}
    (accepted : key.check msg s = .ok ()) :
    (∀ (t : Signature mode) (other : Bytes), key.check other t = .ok () → s.path = t.path →
      s.leaf.index ≠ t.leaf.index →
        mode.hash.Collide (key.checkHashed msg s).inputs (key.checkHashed other t).inputs) ∧
    (∀ (leaf : Leaf mode) (other : Bytes), leaf.index ≠ s.leaf.index →
      key.check other { s with leaf := leaf } = .error .verificationFailed ∨
        mode.hash.Collide (key.checkHashed msg s).inputs
          (key.checkHashed other { s with leaf := leaf }).inputs) := by
  constructor
  · intro t other again paths leaves
    by_contra free
    exact PublicKey.check_ne_ok_of_path_eq free accepted paths (fun same => leaves (by rw [same])) again
  · intro leaf other leaves
    by_cases free : mode.hash.Collide (key.checkHashed msg s).inputs
        (key.checkHashed other { s with leaf := leaf }).inputs
    · exact .inr free
    · have rejected : key.check other { s with leaf := leaf } ≠ .ok () :=
        PublicKey.check_ne_ok_of_path_eq free accepted rfl fun same => leaves (by rw [same])
      exact .inl (PublicKey.check_of_ne_ok rejected)

def flatMode : Mode := ⟨5, OneTime.flatMode, 2, by decide⟩

def blankSignature (q : Leaf flatMode) : Signature flatMode where
  leaf := q
  oneTime := ⟨Octets.zero 32, List.replicate 34 (Octets.zero 32), rfl⟩
  path := [Octets.zero 32, Octets.zero 32]
  path_length := rfl

/-- Leaves one and two are neither siblings nor on one side of the root. -/
theorem accepted_path_pins_leaf_flat :
    let key : PublicKey flatMode := ⟨Octets.zero 16, Octets.zero 32⟩
    let s := blankSignature ⟨1, by decide⟩
    let t := blankSignature ⟨2, by decide⟩
    key.check [0] s = .ok () ∧ key.check [1] t = .ok () ∧ s.path = t.path ∧
      s.leaf.index ≠ t.leaf.index ∧
      flatMode.hash.Collide (key.checkHashed [0] s).inputs (key.checkHashed [1] t).inputs := by
  intro key s t
  have accepted : key.check [0] s = .ok () := by decide +kernel
  have again : key.check [1] t = .ok () := by decide +kernel
  exact ⟨accepted, again, rfl, by decide, (accepted_path_pins_leaf accepted).1 t [1] again rfl (by decide)⟩

end ManyTime

end HashSig
