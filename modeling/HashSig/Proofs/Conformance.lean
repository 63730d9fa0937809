import HashSig.Proofs.Acceptance
import HashSig.Proofs.Coefficients
import HashSig.Proofs.Decoding

/-! The verifier of byte strings is the standard's.

What is hashed is laid out as the standard says, so walks are its chains
(`bytes_finish`), climbs are its loop (`bytes_climb`) and the root that a signature
recovers is its candidate (`bytes_recover`). The fields of the keys and signatures that
can be read are exactly the well-formed ones (`exists_of_wellFormed`).
-/

set_option autoImplicit false

namespace HashSig

def HashFunction.onBytes (hash : HashFunction) (b : Bytes) : Bytes := (hash.digest b).bytes

theorem HashFunction.onBytes_ofDigest (H : Digest) (size : HashSize) :
    (HashFunction.ofDigest H size).onBytes = Standard.hash H size.octets := by
  funext b
  cases size with
  | n24 => rfl
  | n32 => exact (List.take_of_length_le (Nat.le_of_eq (H b).length_eq)).symm

/-! ## Layouts -/

namespace HashInput

open Standard

variable {n : Nat} (id : Identifier) (q : UInt32)

theorem encode_chainStep (i j : Nat) (value : Octets n) :
    (chainStep id q (UInt16.ofNat i) (UInt8.ofNat j) value).encode =
      id.bytes ++ u32str q.toNat ++ u16str i ++ u8str j ++ value.bytes := by
  simp only [encode, u32str_eq, u16str_eq, u8str, UInt32.ofNat_toNat, List.append_assoc,
    List.singleton_append]

theorem encode_message (c : Octets n) (msg : Bytes) :
    (message id q c msg).encode =
      id.bytes ++ u32str q.toNat ++ u16str dMesg ++ c.bytes ++ msg := by
  simp only [encode, u32str_eq, u16str_eq, UInt32.ofNat_toNat, List.append_assoc]
  rfl

theorem encode_publicValue (ends : List (Octets n)) :
    (publicValue id q ends).encode =
      id.bytes ++ u32str q.toNat ++ u16str dPblc ++ (ends.map Octets.bytes).flatten := by
  simp only [encode, u32str_eq, u16str_eq, UInt32.ofNat_toNat, List.append_assoc]
  rfl

theorem encode_leaf (key : Octets n) :
    (leaf id q key).encode = id.bytes ++ u32str q.toNat ++ u16str dLeaf ++ key.bytes := by
  simp only [encode, u32str_eq, u16str_eq, UInt32.ofNat_toNat, List.append_assoc]
  rfl

theorem encode_interior (left right : Octets n) :
    (interior id q left right).encode =
      id.bytes ++ u32str q.toNat ++ u16str dIntr ++ left.bytes ++ right.bytes := by
  simp only [encode, u32str_eq, u16str_eq, UInt32.ofNat_toNat, List.append_assoc]
  rfl

end HashInput

theorem HashFunction.bytes_apply (hash : HashFunction) (input : HashInput hash.size.octets) :
    (hash.apply input).bytes = hash.onBytes input.encode := rfl

/-! ## The one-time key -/

namespace OneTime

variable {mode : Mode} (id : Identifier) (q : UInt32)

theorem Mode.bytes_walk (i start steps : Nat) (value : Octets mode.n) :
    (mode.walk id q i start steps value).bytes =
      (List.range' start steps).foldl (fun tmp j => mode.hash.onBytes
        (id.bytes ++ Standard.u32str q.toNat ++ Standard.u16str i ++ Standard.u8str j ++ tmp))
        value.bytes := by
  induction steps generalizing start value with
  | zero => rfl
  | succ steps ih =>
    rw [walk, ih, List.range'_succ, List.foldl_cons, HashFunction.bytes_apply,
      HashInput.encode_chainStep]

theorem Mode.bytes_finish (i : Nat) (digit : UInt8) (value : Octets mode.n) :
    (mode.finish id q i digit value).bytes = Standard.chain mode.hash.onBytes id.bytes q.toNat i
      digit.toNat (2 ^ mode.width.bits - 1) value.bytes :=
  mode.bytes_walk id q i _ _ value

namespace Signature

theorem bytes_ends (s : Signature mode) (msg : Bytes) :
    (s.ends id q msg).map Octets.bytes = (List.range mode.chains).map fun i =>
      Standard.chain mode.hash.onBytes id.bytes q.toNat i
        (Standard.coef ((mode.hash.apply (.message id q s.c msg)).bytes ++
          Standard.u16str (Standard.checksum mode.parameters.row
            (mode.hash.apply (.message id q s.c msg)).bytes)) i mode.width.bits)
        (2 ^ mode.width.bits - 1) ((s.y.map Octets.bytes).getD i []) := by
  have length := mode.length_messageDigits id q s.c msg
  refine List.ext_getElem (by simp [ends, length, s.y_length]) fun i _ inside => ?_
  rw [List.length_map, List.length_range] at inside
  have digit : (mode.messageDigits id q s.c msg)[i].toNat = _ :=
    mode.parameters.toNat_getElem_expand (mode.hash.apply (.message id q s.c msg)) (by simpa)
  have inside : i < s.y.length := s.y_length ▸ inside
  have value : (s.y.map Octets.bytes).getD i [] = s.y[i].bytes := by simp [inside]
  simp only [ends, List.getElem_map, List.getElem_mapIdx, List.getElem_zip, List.getElem_range,
    Mode.bytes_finish, digit, value]
  rfl

theorem bytes_recover (s : Signature mode) (msg : Bytes) :
    (s.recover id q msg).k.bytes = Standard.candidateKey mode.hash.onBytes id.bytes
      mode.parameters.row q.toNat msg s.c.bytes (s.y.map Octets.bytes) := by
  rw [recover, HashFunction.bytes_apply, HashInput.encode_publicValue, bytes_ends,
    HashFunction.bytes_apply, HashInput.encode_message]
  rfl

end Signature

end OneTime

/-! ## The tree -/

namespace ManyTime

variable {mode : Mode}

theorem Mode.bytes_climb (id : Identifier) (path : List Bytes) {i : Nat} {r : UInt32}
    {siblings : List (Octets mode.n)} (rest : path.drop i = siblings.map Octets.bytes)
    (depth : AtDepth siblings.length r) (value : Octets mode.n) :
    (mode.climb id r value siblings).bytes =
      Standard.climb mode.hash.onBytes id.bytes path r.toNat i value.bytes := by
  induction siblings generalizing i r value with
  | nil =>
    rw [depth.eq_one, Standard.climb]
    rfl
  | cons sibling siblings ih =>
    have more : 1 < r.toNat := by
      have least := depth.1
      have := Nat.one_lt_two_pow (Nat.succ_ne_zero siblings.length)
      rw [List.length_cons] at least
      omega
    have half : (r / 2).toNat = r.toNat / 2 := UInt32.toNat_div r 2
    have here : path.getD i [] = sibling.bytes := by
      rw [List.getD_eq_getElem?_getD, ← List.head?_drop, rest]
      rfl
    have rest : path.drop (i + 1) = siblings.map Octets.bytes := by
      rw [← List.drop_drop, rest]
      rfl
    rw [Mode.climb, Standard.climb, if_pos more, here, ← half, ih rest depth.half]
    congr 1
    split
    · next odd =>
      rw [if_pos (mod_two_eq_one_iff.1 odd), Mode.interiorHash, HashFunction.bytes_apply,
        HashInput.encode_interior]
    · next even =>
      rw [if_neg (mt mod_two_eq_one_iff.2 even), Mode.interiorHash, HashFunction.bytes_apply,
        HashInput.encode_interior]

theorem Signature.bytes_recover (s : Signature mode) (id : Identifier) (msg : Bytes) :
    (s.recover id msg).bytes = Standard.candidateRoot mode.hash.onBytes id.bytes
      mode.oneTime.parameters.row ⟨mode.n, mode.height⟩ s.leaf.index.toNat msg s.oneTime.c.bytes
      (s.oneTime.y.map Octets.bytes) (s.path.map Octets.bytes) := by
  have climbed := Mode.bytes_climb id (s.path.map Octets.bytes) List.drop_zero s.atDepth_node
    (mode.leafHash id s.leaf.node (s.oneTime.recover id s.leaf.index msg).k)
  rw [Mode.leafHash, HashFunction.bytes_apply, HashInput.encode_leaf,
    OneTime.Signature.bytes_recover, s.leaf.toNat_node, Nat.add_comm] at climbed
  exact climbed

end ManyTime

/-! ## Parameter sets -/

def ManyTime.ParameterSet.row (s : ParameterSet) : Standard.TreeRow :=
  ⟨s.size.octets, s.height.levels⟩

namespace Standard

theorem oneTimeRow?_eq_some_iff {typecode : Nat} {row : OneTimeRow} :
    oneTimeRow? typecode = some row ↔
      ∃ s : OneTime.ParameterSet, s.typecode.toNat = typecode ∧ s.row = row := by
  constructor
  · intro found
    unfold oneTimeRow? at found
    split at found <;> cases found
    exacts [⟨⟨.n32, .w1⟩, rfl, rfl⟩, ⟨⟨.n32, .w2⟩, rfl, rfl⟩, ⟨⟨.n32, .w4⟩, rfl, rfl⟩,
      ⟨⟨.n32, .w8⟩, rfl, rfl⟩, ⟨⟨.n24, .w1⟩, rfl, rfl⟩, ⟨⟨.n24, .w2⟩, rfl, rfl⟩,
      ⟨⟨.n24, .w4⟩, rfl, rfl⟩, ⟨⟨.n24, .w8⟩, rfl, rfl⟩]
  · rintro ⟨⟨_ | _, _ | _ | _ | _⟩, rfl, rfl⟩ <;> rfl

theorem treeRow?_eq_some_iff {typecode : Nat} {row : TreeRow} :
    treeRow? typecode = some row ↔
      ∃ s : ManyTime.ParameterSet, s.typecode.toNat = typecode ∧ s.row = row := by
  constructor
  · intro found
    unfold treeRow? at found
    split at found <;> cases found
    exacts [⟨⟨.n32, .h5⟩, rfl, rfl⟩, ⟨⟨.n32, .h10⟩, rfl, rfl⟩, ⟨⟨.n32, .h15⟩, rfl, rfl⟩,
      ⟨⟨.n32, .h20⟩, rfl, rfl⟩, ⟨⟨.n32, .h25⟩, rfl, rfl⟩, ⟨⟨.n24, .h5⟩, rfl, rfl⟩,
      ⟨⟨.n24, .h10⟩, rfl, rfl⟩, ⟨⟨.n24, .h15⟩, rfl, rfl⟩, ⟨⟨.n24, .h20⟩, rfl, rfl⟩,
      ⟨⟨.n24, .h25⟩, rfl, rfl⟩]
  · rintro ⟨⟨_ | _, _ | _ | _ | _ | _⟩, rfl, rfl⟩ <;> rfl

end Standard

/-! ## Fields -/

theorem HashSize.octets_injective {size other : HashSize} (same : size.octets = other.octets) :
    size = other := by
  cases size <;> cases other <;> first | rfl | cases same

theorem Octets.length_of_mem_map_bytes {n : Nat} {fields : List (Octets n)} {b : Bytes}
    (member : b ∈ fields.map Octets.bytes) : b.length = n := by
  obtain ⟨field, _, rfl⟩ := List.mem_map.1 member
  exact field.length_eq

theorem Octets.exists_map_bytes {n : Nat} {strings : List Bytes}
    (lengths : ∀ b ∈ strings, b.length = n) :
    ∃ fields : List (Octets n), fields.map Octets.bytes = strings :=
  ⟨strings.pmap (fun b length => ⟨b, length⟩) lengths, by simp [List.map_pmap]⟩

namespace ManyTime

/-- What a key and a signature are written from. -/
def PublicKey.fields {mode : Mode} (key : PublicKey mode) (s : Signature mode) : Standard.Fields where
  treeType := mode.typecode.toNat
  oneTimeType := mode.oneTime.typecode.toNat
  I := key.id.bytes
  K := key.root.bytes
  q := s.leaf.index.toNat
  C := s.oneTime.c.bytes
  y := s.oneTime.y.map Octets.bytes
  path := s.path.map Octets.bytes

section

variable {mode : Mode} (key : PublicKey mode) (s : Signature mode)

theorem PublicKey.publicKey_fields : (key.fields s).publicKey = key.encode := by
  simp only [Standard.Fields.publicKey, fields, Standard.u32str_eq, UInt32.ofNat_toNat, encode,
    Mode.header, List.append_assoc]

theorem PublicKey.signature_fields : (key.fields s).signature = s.encode := by
  simp only [Standard.Fields.signature, fields, Standard.u32str_eq, UInt32.ofNat_toNat,
    Signature.encode, OneTime.Signature.encode, Octets.join, List.flatMap_def, List.append_assoc]

end

section

variable {H : Digest} {set : ParameterSet} {oneTime : OneTime.ParameterSet}
  (sizes : set.size = oneTime.size)
include sizes

theorem PublicKey.wellFormed_fields (key : PublicKey (set.modeWith H oneTime))
    (s : Signature (set.modeWith H oneTime)) : (key.fields s).WellFormed oneTime.row set.row where
  treeType := Standard.treeRow?_eq_some_iff.2 ⟨set, rfl, rfl⟩
  oneTimeType := Standard.oneTimeRow?_eq_some_iff.2 ⟨oneTime, rfl, rfl⟩
  sizes := congrArg HashSize.octets sizes
  I := key.id.length_eq
  K := key.root.length_eq.trans (congrArg HashSize.octets sizes.symm)
  q := s.leaf.toNat_index_lt
  C := s.oneTime.c.length_eq
  y := ⟨(List.length_map _).trans s.oneTime.y_length, fun _ => Octets.length_of_mem_map_bytes⟩
  path := ⟨(List.length_map _).trans s.path_length, fun _ member =>
    (Octets.length_of_mem_map_bytes member).trans (congrArg HashSize.octets sizes.symm)⟩

theorem PublicKey.candidate_fields_iff {key : PublicKey (set.modeWith H oneTime)} {msg : Bytes}
    {s : Signature (set.modeWith H oneTime)} : (key.fields s).K =
      Standard.candidateRoot (Standard.hash H set.row.m) (key.fields s).I oneTime.row set.row
        (key.fields s).q msg (key.fields s).C (key.fields s).y (key.fields s).path ↔
      key.check msg s = .ok () := by
  have hash : (set.modeWith H oneTime).hash.onBytes = Standard.hash H set.row.m :=
    (HashFunction.onBytes_ofDigest H oneTime.size).trans
      (congrArg (Standard.hash H ·.octets) sizes.symm)
  rw [check_eq_ok_iff, Octets.ext_iff, s.bytes_recover, hash]
  rfl

end

theorem Leaf.exists_toNat_index {mode : Mode} {q : Nat} (inTree : q < 2 ^ mode.height) :
    ∃ leaf : Leaf mode, leaf.index.toNat = q := by
  rw [← mode.toNat_leaves] at inTree
  have number : (UInt32.ofNat q).toNat = q :=
    UInt32.toNat_ofNat_of_lt' (Nat.lt_trans inTree mode.leaves.toNat_lt)
  exact ⟨⟨UInt32.ofNat q, UInt32.lt_iff_toNat_lt.2 (number.symm ▸ inTree)⟩, number⟩

theorem exists_fields (mode : Mode) {q : Nat} {I K C : Bytes} {y path : List Bytes}
    (id : I.length = 16) (root : K.length = mode.n) (inTree : q < 2 ^ mode.height)
    (randomizer : C.length = mode.n)
    (values : y.length = mode.oneTime.chains ∧ ∀ value ∈ y, value.length = mode.n)
    (nodes : path.length = mode.height ∧ ∀ node ∈ path, node.length = mode.n) :
    ∃ (key : PublicKey mode) (s : Signature mode),
      key.fields s = ⟨mode.typecode.toNat, mode.oneTime.typecode.toNat, I, K, q, C, y, path⟩ := by
  obtain ⟨leaf, rfl⟩ := Leaf.exists_toNat_index inTree
  obtain ⟨y, rfl⟩ := Octets.exists_map_bytes values.2
  obtain ⟨path, rfl⟩ := Octets.exists_map_bytes nodes.2
  rw [List.length_map] at values nodes
  exact ⟨⟨⟨I, id⟩, ⟨K, root⟩⟩, ⟨leaf, ⟨⟨C, randomizer⟩, y, values.1⟩, path, nodes.1⟩, rfl⟩

/-- Well-formed fields are those of a key and a signature of some registered sets. -/
theorem exists_of_wellFormed (H : Digest) {f : Standard.Fields} {row : Standard.OneTimeRow}
    {tree : Standard.TreeRow} (wellFormed : f.WellFormed row tree) :
    ∃ (set : ParameterSet) (oneTime : OneTime.ParameterSet) (key : PublicKey (set.modeWith H oneTime))
      (s : Signature (set.modeWith H oneTime)), set.size = oneTime.size ∧ oneTime.row = row ∧
        set.row = tree ∧ key.fields s = f := by
  rcases f with ⟨treeType, oneTimeType, I, K, q, C, y, path⟩
  obtain ⟨set, rfl, rfl⟩ := Standard.treeRow?_eq_some_iff.1 wellFormed.treeType
  obtain ⟨oneTime, rfl, rfl⟩ := Standard.oneTimeRow?_eq_some_iff.1 wellFormed.oneTimeType
  have nodes (node : Bytes) (member : node ∈ path) : node.length = (set.modeWith H oneTime).n :=
    (wellFormed.path.2 node member).trans wellFormed.sizes
  obtain ⟨key, s, same⟩ := exists_fields (set.modeWith H oneTime) wellFormed.I
    (wellFormed.K.trans wellFormed.sizes) wellFormed.q wellFormed.C wellFormed.y
    ⟨wellFormed.path.1, nodes⟩
  exact ⟨set, oneTime, key, s, HashSize.octets_injective wellFormed.sizes, rfl, rfl, same⟩

theorem verify_eq_ok_iff_valid {H : Digest} {publicKey msg signature : Bytes} :
    (verifyWith H publicKey msg signature).value = .ok () ↔
      Standard.Valid H publicKey msg signature := by
  rw [verify_eq_ok_iff]
  constructor
  · rintro ⟨set, oneTime, key, s, sizes, rfl, rfl, accepted⟩
    exact ⟨key.fields s, oneTime.row, set.row, key.wellFormed_fields sizes s,
      (key.publicKey_fields s).symm, (key.signature_fields s).symm,
      (PublicKey.candidate_fields_iff sizes).2 accepted⟩
  · rintro ⟨f, row, tree, wellFormed, rfl, rfl, candidate⟩
    obtain ⟨set, oneTime, key, s, sizes, rfl, rfl, rfl⟩ := exists_of_wellFormed H wellFormed
    exact ⟨set, oneTime, key, s, sizes, (key.publicKey_fields s).symm, (key.signature_fields s).symm,
      (PublicKey.candidate_fields_iff sizes).1 candidate⟩

/-- The verifier of byte strings accepts what the standard accepts, whichever function
`H` both hash with. On a public key that names a mode it answers what reading key and
signature in that mode and checking them does; and no other public key can be read in
the mode. -/
theorem verify_conforms (H : Digest) (publicKey msg signature : Bytes) :
    ((verifyWith H publicKey msg signature).value = .ok () ↔
        Standard.Valid H publicKey msg signature) ∧
      ∀ (set : ParameterSet) (oneTime : OneTime.ParameterSet), set.size = oneTime.size →
        let mode := set.modeWith H oneTime
        (mode.header <+: publicKey →
          (verifyWith H publicKey msg signature).value = (do
            let key ← PublicKey.decode mode publicKey
            let s ← Signature.decode mode signature
            key.check msg s)) ∧
        ∀ key, PublicKey.decode mode publicKey = .ok key → mode.header <+: publicKey := by
  refine ⟨verify_eq_ok_iff_valid, fun set oneTime sizes => ⟨?_, fun _ =>
    PublicKey.header_prefix_of_decode⟩⟩
  rintro ⟨rest, rfl⟩
  exact verify_append sizes rest msg signature

theorem verify_conforms_twoLeavesLeft :
    let key := twoLeavesLeft.publicHalf
    let s := twoLeavesLeft.signLeaf twoLeavesLeft.merkleTree ⟨30, by decide⟩ [1] none
    (ParameterSet.mode ⟨.n32, .h5⟩ ⟨.n32, .w4⟩).header <+: key.encode ∧
      (verify key.encode [1] s.encode).value = .ok () ∧
      Standard.Valid Sha256.digest key.encode [1] s.encode := by
  intro key s
  have conforms := verify_conforms Sha256.digest key.encode [1] s.encode
  have named : (ParameterSet.mode ⟨.n32, .h5⟩ ⟨.n32, .w4⟩).header <+: key.encode :=
    ⟨key.id.bytes ++ key.root.bytes, rfl⟩
  have accepted : (verify key.encode [1] s.encode).value = .ok () := by
    rw [(conforms.2 ⟨.n32, .h5⟩ ⟨.n32, .w4⟩ rfl).1 named]
    exact (Mode.verifyBytes_encode (ParameterSet.registered_modeWith _ _ _) key [1] s).trans
      (twoLeavesLeft.check_signLeaf _ _ _)
  exact ⟨named, accepted, conforms.1.1 accepted⟩

end ManyTime

end HashSig
