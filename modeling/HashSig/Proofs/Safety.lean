import HashSig.Proofs.GuardedChains
import HashSig.Proofs.Refusal
import HashSig.Proofs.Tree

/-! Nothing goes out of range when keys and signatures are read and verified.

The readers and the verifiers are written here once more with operations that are
refused when they go out of range, and with every part of a string cut out at the
place where it is used. Whatever the strings, no operation is refused
(`no_input_faults`), and the answers are those of the readers that cut no string
before they know its length.
-/

set_option autoImplicit false

namespace HashSig

open Guarded

def readField (n : Nat) (b : Bytes) : Except Error (Octets n) :=
  match Octets.ofBytes? n b with
  | some field => .ok field
  | none => .error .invalidSignatureEncoding

theorem readField_of_length {n : Nat} {b : Bytes} (exact : b.length = n) : readField n b = .ok ⟨b, exact⟩ := by
  rw [readField, Octets.ofBytes?, dif_pos exact]

def readFields (n : Nat) (pieces : List Bytes) : Except Error (List (Octets n)) :=
  pieces.mapM (readField n)

theorem readFields_cut {n count : Nat} {b : Bytes} (fits : count * n ≤ b.length) :
    readFields n (cut n count b) = .ok (Octets.pieces n count b fits) := by
  induction count generalizing b with
  | zero => rfl
  | succ count ih =>
    rw [Nat.succ_mul] at fits
    have whole : (b.take n).length = n := by
      rw [List.length_take]
      omega
    rw [cut, readFields, List.mapM_cons, readField_of_length whole]
    exact congrArg (List.cons _ <$> ·) (ih _)

theorem Bytes.le_length_of_uint32At? {b : Bytes} {start : Nat} {x : UInt32}
    (found : b.uint32At? start = some x) : start + 4 ≤ b.length := by
  apply Nat.le_of_not_lt
  intro short
  rw [uint32At?_eq_none_iff.2 short] at found
  cases found

theorem HashSize.le_octets (size : HashSize) : 24 ≤ size.octets := by
  cases size <;> decide

theorem HashSize.octets_bounds (size : HashSize) : 0 < size.octets ∧ size.octets ≤ 32 := by
  cases size <;> decide

namespace OneTime

variable {mode : Mode}

def Signature.decodeGuarded (mode : Mode) (b : Bytes) : Attempt (Parts mode.n) := do
  let length ← mode.parameters.signatureLengthGuarded
  let badLength := Error.invalidSignatureLength length b.length
  let some typecode := b.uint32At? 0 | throw badLength
  mode.expectTypecode typecode
  if b.length = length then
    let c :: y ← chunks mode.n (← dropFrom b 4) | throw .invalidSignatureEncoding
    return ⟨← readField mode.n c, ← readFields mode.n y⟩
  else
    throw badLength

def PublicKey.decodeGuarded (mode : Mode) (b : Bytes) : Attempt (PublicKey mode) := do
  let some typecode := b.uint32At? 0 | throw .invalidPublicKey
  mode.expectTypecode typecode
  let rest ← dropFrom b 4
  let length ← add lengthBits (16 + 4) mode.n
  if rest.length = length then
    let (id, rest) ← splitAt rest 16
    let (q, k) ← splitAt rest 4
    let some q := q.uint32At? 0 | throw .invalidPublicKey
    let some id := Octets.ofBytes? 16 id | throw .invalidPublicKey
    let some k := Octets.ofBytes? mode.n k | throw .invalidPublicKey
    return ⟨q, id, k⟩
  else
    throw .invalidPublicKey

def PublicKey.verifyGuarded (key : PublicKey mode) (msg : Bytes) (parts : Parts mode.n) :
    Guarded (Except SignatureError Unit) := do
  let candidate ← mode.recoverGuarded parts key.id key.q msg
  return if key.k = candidate.k then .ok () else .error .withheld

theorem ParameterSet.signatureLength_le (s : ParameterSet) : s.signatureLength ≤ 8516 := by
  rcases s with ⟨_ | _, _ | _ | _ | _⟩ <;> decide

theorem Signature.answers_decodeGuarded (mode : Mode) (b : Bytes) :
    (decodeGuarded mode b).Answers (Signature.parts <$> decode mode b) := by
  rw [decodeGuarded, decode]
  refine .guarded mode.parameters.signatureLengthGuarded_eq ?_
  cases b.uint32At? 0 with
  | none => exact .throw _
  | some typecode =>
    simp only [map_bind]
    refine .bind (.lift _) fun _ _ => ?_
    by_cases exact : b.length = mode.signatureLength
    · have rest : (b.drop 4).length = (mode.chains + 1) * mode.n := by
        rw [List.length_drop, exact, Nat.mul_comm]
        exact Nat.add_sub_cancel_left 4 _
      have inside : 4 ≤ b.length := exact ▸ Nat.le_add_right 4 _
      have first : ((b.drop 4).take mode.n).length = mode.n := by
        rw [List.length_take, rest, Nat.succ_mul]
        omega
      have others : mode.chains * mode.n ≤ (b.drop (4 + mode.n)).length := by
        rw [← List.drop_drop, List.length_drop, rest, Nat.succ_mul, Nat.add_sub_cancel]
      rw [if_pos exact, dif_pos exact]
      refine .guarded (dropFrom_eq inside) ?_
      refine .guarded (chunks_eq mode.hash.size.octets_bounds.1 rest) ?_
      simp only [cut]
      rw [readField_of_length first, List.drop_drop, readFields_cut others]
      exact .pure _
    · rw [if_neg exact, dif_neg exact]
      exact .throw _

theorem PublicKey.answers_decodeGuarded (mode : Mode) (b : Bytes) :
    (decodeGuarded mode b).Answers (decode mode b) := by
  rw [decodeGuarded, decode]
  cases found : b.uint32At? 0 with
  | none => exact .throw _
  | some typecode =>
    refine .bind (.lift _) fun _ _ => ?_
    have inside := Bytes.le_length_of_uint32At? found
    have small : 16 + 4 + mode.n < 2 ^ lengthBits :=
      Nat.lt_of_le_of_lt (Nat.add_le_add_left mode.hash.size.octets_bounds.2 _) (by decide)
    refine .guarded (dropFrom_eq inside) ?_
    refine .guarded (add_eq small) ?_
    by_cases exact : b.length = mode.publicKeyLength
    · have whole : b.length = 24 + mode.n := exact
      have rest : (b.drop 4).length = 16 + 4 + mode.n := by
        rw [List.length_drop]
        omega
      rw [if_pos rest, dif_pos exact]
      refine .guarded (splitAt_eq (by omega)) ?_
      refine .guarded (splitAt_eq (by rw [List.length_drop]; omega)) ?_
      have leaf : Bytes.uint32At? (((b.drop 4).drop 16).take 4) 0 = some (b.uint32At 20 (by omega)) := by
        rw [List.drop_drop]
        exact Bytes.uint32At?_take_drop (Bytes.uint32At?_of_le _) (Nat.le_refl 4)
      have id := Octets.ofBytes?_take_drop (show 4 + 16 ≤ b.length by omega)
      have value : Octets.ofBytes? mode.n (((b.drop 4).drop 16).drop 4) =
          some (Octets.slice b 24 mode.n (Nat.le_of_eq exact.symm)) := by
        rw [List.drop_drop, List.drop_drop]
        exact Octets.ofBytes?_drop whole
      simp only [leaf, id, value]
      exact .pure _
    · have other : (b.drop 4).length ≠ 16 + 4 + mode.n := by
        rw [List.length_drop]
        change b.length ≠ 24 + mode.n at exact
        omega
      rw [if_neg other, dif_neg exact]
      exact .throw _

theorem PublicKey.verifyGuarded_eq (key : PublicKey mode) (msg : Bytes) (s : Signature mode) :
    key.verifyGuarded msg s.parts = .ok (key.verify msg s) := by
  rw [verifyGuarded, s.recoverGuarded_eq]
  rfl

end OneTime

namespace ManyTime

variable {mode : Mode}

/-- A signature as it was read, or put together, before its leaf number and the
length of its path are known to be right. -/
structure Parts (mode : Mode) where
  q : UInt32
  oneTime : OneTime.Parts mode.n
  path : List (Octets mode.n)

def Signature.parts (s : Signature mode) : Parts mode := ⟨s.leaf.index, s.oneTime.parts, s.path⟩

namespace Mode

variable (mode : Mode)

def leavesGuarded : Guarded Nat := shiftLeft 32 1 mode.height

def signatureLengthGuarded : Guarded Nat := do
  let oneTime ← mode.oneTime.parameters.signatureLengthGuarded
  add lengthBits (← add lengthBits 8 oneTime) (← mul lengthBits mode.height mode.n)

end Mode

def PublicKey.decodeGuarded (mode : Mode) (b : Bytes) : Attempt (PublicKey mode) := do
  mode.expectHeader .invalidPublicKey b
  let length ← add lengthBits 24 mode.n
  if b.length = length then
    let (id, root) ← splitAt (← dropFrom b 8) 16
    let some id := Octets.ofBytes? 16 id | throw .invalidPublicKey
    return ← ofRoot mode id root
  else
    throw .invalidPublicKey

def Signature.fieldsGuarded (mode : Mode) (q : UInt32) (oneTimeEnd : Nat) (b : Bytes) :
    Attempt (Parts mode) := do
  let oneTime ← OneTime.Signature.decodeGuarded mode.oneTime (← slice b 4 oneTimeEnd)
  let path ← chunks mode.n (← dropFrom b (← add lengthBits oneTimeEnd 4))
  return ⟨q, oneTime, ← readFields mode.n path⟩

def Signature.decodeGuarded (mode : Mode) (b : Bytes) : Attempt (Parts mode) := do
  let length ← mode.signatureLengthGuarded
  let badLength := Error.invalidSignatureLength length b.length
  let some q := b.uint32At? 0 | throw badLength
  let some oneTimeType := (← dropFrom b 4).uint32At? 0 | throw badLength
  mode.oneTime.expectTypecode oneTimeType
  let oneTimeEnd ← add lengthBits 4 (← mode.oneTime.parameters.signatureLengthGuarded)
  let some manyTimeType := b.uint32At? oneTimeEnd | throw badLength
  mode.expectTypecode manyTimeType
  if q.toNat < (← mode.leavesGuarded) then
    if b.length = length then fieldsGuarded mode q oneTimeEnd b else throw badLength
  else
    throw .invalidSignatureEncoding

def PublicKey.checkGuarded (key : PublicKey mode) (msg : Bytes) (s : Parts mode) : Attempt Unit := do
  let leaves ← mode.leavesGuarded
  if s.q.toNat < leaves ∧ s.path.length = mode.height then
    let candidate ← mode.oneTime.recoverGuarded s.oneTime key.id s.q msg
    let node := UInt32.ofNat (← add 32 s.q.toNat leaves)
    let root := mode.climb key.id node (mode.leafHash key.id node candidate.k) s.path
    if key.root = root then return () else throw .verificationFailed
  else
    throw .invalidSignatureEncoding

def Mode.verifyBytesGuarded (mode : Mode) (publicKey msg signature : Bytes) : Attempt Unit := do
  let key ← PublicKey.decodeGuarded mode publicKey
  let s ← Signature.decodeGuarded mode signature
  key.checkGuarded msg s

def verifyGuarded (H : Digest) (publicKey msg signature : Bytes) : Attempt Unit := do
  let (manyTime, oneTime) ← readParameterSets publicKey
  if manyTime.size = oneTime.size then
    (manyTime.modeWith H oneTime).verifyBytesGuarded publicKey msg signature
  else
    throw (.incompatibleParameters manyTime.typecode oneTime.typecode)

theorem Mode.leavesGuarded_eq (mode : Mode) : mode.leavesGuarded = .ok mode.leaves.toNat := by
  have fits : 1 * 2 ^ mode.height < 2 ^ 32 := by
    have := mode.two_mul_leaves_lt
    omega
  rw [leavesGuarded, shiftLeft_eq (Nat.lt_trans mode.height_lt (by decide)) fits, Nat.one_mul,
    mode.toNat_leaves]

theorem Mode.signatureLengthGuarded_eq (mode : Mode) :
    mode.signatureLengthGuarded = .ok mode.signatureLength := by
  have path : mode.height * mode.n ≤ 30 * 32 :=
    Nat.mul_le_mul (Nat.le_of_lt_succ mode.height_lt) mode.hash.size.octets_bounds.2
  have oneTime := mode.oneTime.parameters.signatureLength_le
  have room : 2 ^ lengthBits = 65536 := by decide
  rw [signatureLengthGuarded, OneTime.ParameterSet.signatureLengthGuarded_eq, ok_bind, add_eq (by omega),
    ok_bind, mul_eq (by omega), ok_bind]
  exact add_eq (by omega)

theorem PublicKey.answers_decodeGuarded (mode : Mode) (b : Bytes) :
    (decodeGuarded mode b).Answers (decode mode b) := by
  have small : 24 + mode.n < 2 ^ lengthBits :=
    Nat.lt_of_le_of_lt (Nat.add_le_add_left mode.hash.size.octets_bounds.2 _) (by decide)
  rw [decodeGuarded, decode]
  refine .bind (.lift _) fun _ _ => .guarded (add_eq small) ?_
  by_cases exact : b.length = mode.publicKeyLength
  · have whole : b.length = 24 + mode.n := exact
    have rest : (b.drop 8).length = 16 + mode.n := by
      rw [List.length_drop]
      omega
    have id := Octets.ofBytes?_take_drop (show 8 + 16 ≤ b.length by omega)
    have root := Octets.ofBytes?_drop whole
    rw [if_pos exact, dif_pos exact]
    refine .guarded (dropFrom_eq (by omega)) (.guarded (splitAt_eq (by omega)) ?_)
    simp only [id, ofRoot, List.drop_drop, root]
    exact .pure _
  · rw [if_neg exact, dif_neg exact]
    exact .throw _

theorem Signature.answers_fieldsGuarded {mode : Mode} (leaf : Leaf mode) {b : Bytes}
    (exact : b.length = mode.signatureLength) :
    (fieldsGuarded mode leaf.index (4 + mode.oneTime.signatureLength) b).Answers (do
      let oneTime ← OneTime.Signature.decode mode.oneTime ((b.drop 4).take mode.oneTime.signatureLength)
      return (withPath leaf oneTime b exact).parts) := by
  have bound : mode.oneTime.signatureLength ≤ 8516 := mode.oneTime.parameters.signatureLength_le
  have room : 2 ^ lengthBits = 65536 := by decide
  have whole : b.length = 8 + mode.oneTime.signatureLength + mode.height * mode.n := exact
  have rest : (b.drop (8 + mode.oneTime.signatureLength)).length = mode.height * mode.n := by
    rw [List.length_drop]
    omega
  have next : 4 + mode.oneTime.signatureLength + 4 = 8 + mode.oneTime.signatureLength := by omega
  have oneTime := OneTime.Signature.answers_decodeGuarded mode.oneTime
    ((b.drop 4).take mode.oneTime.signatureLength)
  rw [fieldsGuarded]
  refine .guarded (slice_eq (Nat.le_add_right 4 _) (by omega)) ?_
  rw [Nat.add_sub_cancel_left]
  refine .bind_map oneTime fun oneTime _ => ?_
  refine .guarded ((add_eq (by omega)).trans (congrArg Except.ok next)) ?_
  refine .guarded (dropFrom_eq (by omega)) ?_
  refine .guarded (chunks_eq mode.hash.size.octets_bounds.1 rest) ?_
  rw [readFields_cut (Nat.le_of_eq rest.symm)]
  exact .pure _

theorem Signature.answers_decodeGuarded (mode : Mode) (b : Bytes) :
    (decodeGuarded mode b).Answers (Signature.parts <$> decode mode b) := by
  have oneTimeLength : mode.oneTime.parameters.signatureLengthGuarded = .ok mode.oneTime.signatureLength :=
    OneTime.ParameterSet.signatureLengthGuarded_eq _
  have bound : mode.oneTime.signatureLength ≤ 8516 := mode.oneTime.parameters.signatureLength_le
  have room : 2 ^ lengthBits = 65536 := by decide
  rw [decodeGuarded, decode]
  refine .guarded mode.signatureLengthGuarded_eq ?_
  cases foundQ : b.uint32At? 0 with
  | none => exact .throw _
  | some q =>
    refine .guarded (dropFrom_eq (Bytes.le_length_of_uint32At? foundQ)) ?_
    have next : Bytes.uint32At? (b.drop 4) 0 = b.uint32At? 4 := rfl
    rw [next]
    cases b.uint32At? 4 with
    | none => exact .throw _
    | some oneTimeType =>
      simp only [map_bind]
      refine .bind (.lift _) fun _ _ => ?_
      refine .guarded oneTimeLength (.guarded (add_eq (by omega)) ?_)
      cases b.uint32At? (4 + mode.oneTime.signatureLength) with
      | none => exact .throw _
      | some manyTimeType =>
        simp only [map_bind]
        refine .bind (.lift _) fun _ _ => .guarded mode.leavesGuarded_eq ?_
        by_cases inRange : q < mode.leaves
        · rw [if_pos (UInt32.lt_iff_toNat_lt.1 inRange), dif_pos inRange]
          by_cases exact : b.length = mode.signatureLength
          · rw [if_pos exact, dif_pos exact, map_bind]
            exact answers_fieldsGuarded ⟨q, inRange⟩ exact
          · rw [if_neg exact, dif_neg exact]
            exact .throw _
        · rw [if_neg (mt UInt32.lt_iff_toNat_lt.2 inRange), dif_neg inRange]
          exact .throw _

theorem PublicKey.answers_checkGuarded (key : PublicKey mode) (msg : Bytes) (s : Signature mode) :
    (key.checkGuarded msg s.parts).Answers (key.check msg s) := by
  have inRange : s.parts.q.toNat < mode.leaves.toNat ∧ s.parts.path.length = mode.height :=
    ⟨UInt32.lt_iff_toNat_lt.1 s.leaf.index_lt, s.path_length⟩
  have number : s.leaf.node.toNat = s.parts.q.toNat + mode.leaves.toNat := by
    rw [s.leaf.toNat_node, mode.toNat_leaves]
    rfl
  rw [checkGuarded, check]
  refine .guarded mode.leavesGuarded_eq ?_
  rw [if_pos inRange]
  refine .guarded (s.oneTime.recoverGuarded_eq key.id s.leaf.index msg) ?_
  refine .guarded (add_eq (number ▸ s.leaf.node.toNat_lt)) ?_
  rw [← number, UInt32.ofNat_toNat]
  change Attempt.Answers (if key.root = s.recover key.id msg then pure () else throw .verificationFailed) _
  split
  · exact .pure _
  · exact .throw _

theorem Mode.answers_verifyBytesGuarded (mode : Mode) (publicKey msg signature : Bytes) :
    (mode.verifyBytesGuarded publicKey msg signature).Answers (mode.verifyBytes publicKey msg signature) := by
  rw [verifyBytesGuarded, verifyBytes]
  refine .bind (PublicKey.answers_decodeGuarded mode publicKey) fun key _ => ?_
  exact .bind_map (Signature.answers_decodeGuarded mode signature) fun s _ => key.answers_checkGuarded msg s

theorem answers_verifyGuarded (H : Digest) (publicKey msg signature : Bytes) :
    (verifyGuarded H publicKey msg signature).Answers (verifyWith H publicKey msg signature).value := by
  rw [verifyGuarded, verifyWith]
  cases readParameterSets publicKey with
  | error e => exact .throw e
  | ok sets =>
    refine .answered ?_
    dsimp only
    split
    · exact Mode.answers_verifyBytesGuarded _ publicKey msg signature
    · exact .throw _

end ManyTime

/-! ## Main result -/

/-- Keys and signatures of the mode are read, and one-time signatures verified, without
a fault. -/
structure OneTime.Mode.Faultless (mode : OneTime.Mode) : Prop where
  publicKey : ∀ b, (PublicKey.decodeGuarded mode b).Answers (PublicKey.decode mode b)
  signature : ∀ b, (Signature.decodeGuarded mode b).Answers (Signature.parts <$> Signature.decode mode b)
  verify : ∀ (key : PublicKey mode) (msg : Bytes) (s : Signature mode),
    key.verifyGuarded msg s.parts = .ok (key.verify msg s)

structure ManyTime.Mode.Faultless (mode : ManyTime.Mode) : Prop where
  publicKey : ∀ b, (PublicKey.decodeGuarded mode b).Answers (PublicKey.decode mode b)
  signature : ∀ b, (Signature.decodeGuarded mode b).Answers (Signature.parts <$> Signature.decode mode b)
  check : ∀ (key : PublicKey mode) (msg : Bytes) (s : Signature mode),
    (key.checkGuarded msg s.parts).Answers (key.check msg s)
  verifyBytes : ∀ publicKey msg signature : Bytes,
    (mode.verifyBytesGuarded publicKey msg signature).Answers (mode.verifyBytes publicKey msg signature)

/-- Whatever the strings, no operation of the readers and of the verifiers is refused:
not where the public key names the mode, and in no mode of either kind. The answers are
those of the definitions without guards. -/
theorem no_input_faults :
    (∀ (H : Digest) (publicKey msg signature : Bytes),
      (ManyTime.verifyGuarded H publicKey msg signature).Answers
        (ManyTime.verifyWith H publicKey msg signature).value) ∧
    (∀ mode : ManyTime.Mode, mode.Faultless) ∧ (∀ mode : OneTime.Mode, mode.Faultless) ∧
    ∀ (H : Digest) (size : HashSize) (message : Bytes),
      digestGuarded H size message = .ok ((HashFunction.ofDigest H size).digest message) :=
  ⟨ManyTime.answers_verifyGuarded,
    fun mode => {
      publicKey := ManyTime.PublicKey.answers_decodeGuarded mode
      signature := ManyTime.Signature.answers_decodeGuarded mode
      check := ManyTime.PublicKey.answers_checkGuarded
      verifyBytes := mode.answers_verifyBytesGuarded },
    fun mode => {
      publicKey := OneTime.PublicKey.answers_decodeGuarded mode
      signature := OneTime.Signature.answers_decodeGuarded mode
      verify := OneTime.PublicKey.verifyGuarded_eq },
    digestGuarded_eq⟩

end HashSig
