import HashSig.ManyTime.PrivateKey
import HashSig.ManyTime.Verification

/-! What was written is read back.

A field is read from where it stands (`uint32At?_of_layout`, `slice_of_layout`).
Hence keys and signatures of a mode with registered typecodes survive being written
and read, and a public key of registered sets leads the verifier of byte strings back
to its mode (`verify_encode`).
-/

set_option autoImplicit false

namespace HashSig

theorem bind_eq_ok_iff {α β : Type} {first : Except Error α} {next : α → Except Error β} {b : β} :
    (first >>= next) = .ok b ↔ ∃ a, first = .ok a ∧ next a = .ok b := by
  cases first with
  | error e =>
    constructor
    · nofun
    · rintro ⟨_, made, _⟩
      cases made
  | ok a =>
    constructor
    · intro made
      exact ⟨a, rfl, made⟩
    · rintro ⟨_, made, read⟩
      cases made
      exact read

/-- Both fail with the same error, or both succeed with related values. -/
inductive Agree {ε α : Type} (related : α → α → Prop) : Except ε α → Except ε α → Prop where
  | ok {a b : α} (same : related a b) : Agree related (.ok a) (.ok b)
  | error {e : ε} : Agree related (.error e) (.error e)

theorem Agree.imp {ε α : Type} {related other : α → α → Prop} {x y : Except ε α}
    (weaker : ∀ {a b}, related a b → other a b) (agree : Agree related x y) : Agree other x y := by
  cases agree with
  | ok same => exact .ok (weaker same)
  | error => exact .error

/-! ## Fields -/

section

variable {b : Bytes} (before rest : Bytes) {start : Nat}

theorem Bytes.uint32At?_of_layout {x : UInt32} (layout : b = before ++ (Bytes.ofUInt32 x ++ rest))
    (position : before.length = start) : b.uint32At? start = some x := by
  rw [layout, ← position, Bytes.uint32At?_append]

theorem Bytes.uint32At_of_layout {x : UInt32} (layout : b = before ++ (Bytes.ofUInt32 x ++ rest))
    (position : before.length = start) (fits : start + 4 ≤ b.length) : b.uint32At start fits = x := by
  have read := Bytes.uint32At?_of_layout before rest layout position
  rw [Bytes.uint32At?_of_le fits] at read
  exact Option.some.inj read

namespace Octets

variable {n : Nat}

theorem slice_of_layout {field : Octets n} (layout : b = before ++ (field.bytes ++ rest))
    (position : before.length = start) (fits : start + n ≤ b.length) : slice b start n fits = field := by
  apply Octets.ext
  rw [bytes_slice, layout, ← position, List.drop_left, List.take_left' field.length_eq]

end Octets

end

/-! ## One-time keys and signatures -/

namespace OneTime

variable {mode : Mode}

def Mode.Registered (mode : Mode) : Prop := ∃ s : ParameterSet, s.typecode = mode.typecode

theorem ParameterSet.registered_modeWith (s : ParameterSet) (H : Digest) : (s.modeWith H).Registered :=
  ⟨s, rfl⟩

theorem Mode.Registered.expectTypecode (registered : mode.Registered) :
    mode.expectTypecode mode.typecode = .ok () := by
  obtain ⟨s, same⟩ := registered
  simp only [Mode.expectTypecode, ← same, ParameterSet.lookup_typecode, if_true]

theorem PublicKey.decode_encode (registered : mode.Registered) (key : PublicKey mode) :
    decode mode key.encode = .ok key := by
  have typecode : key.encode.uint32At? 0 = some mode.typecode := Bytes.uint32At?_of_layout [] _ rfl rfl
  have q (fits : 20 + 4 ≤ key.encode.length) : key.encode.uint32At 20 fits = key.q := by
    refine Bytes.uint32At_of_layout (Bytes.ofUInt32 mode.typecode ++ key.id.bytes) key.k.bytes ?_ ?_ fits
    · rw [encode, List.append_assoc]
    · rw [List.length_append, Bytes.length_ofUInt32, key.id.length_eq]
  have id (fits : 4 + 16 ≤ key.encode.length) : Octets.slice key.encode 4 16 fits = key.id :=
    Octets.slice_of_layout (Bytes.ofUInt32 mode.typecode) _ rfl rfl fits
  have k (fits : 24 + mode.n ≤ key.encode.length) : Octets.slice key.encode 24 mode.n fits = key.k := by
    refine Octets.slice_of_layout (Bytes.ofUInt32 mode.typecode ++ (key.id.bytes ++ Bytes.ofUInt32 key.q)) []
      ?_ ?_ fits
    · rw [encode, List.append_nil, List.append_assoc, List.append_assoc]
    · simp only [List.length_append, Bytes.length_ofUInt32, key.id.length_eq]
  simp only [decode, typecode, registered.expectTypecode, key.length_encode, q, id, k]
  rfl

theorem Signature.fields_encode (s : Signature mode) (exact : s.encode.length = mode.signatureLength) :
    fields mode s.encode exact = s := by
  have c (fits : 4 + mode.n ≤ s.encode.length) : Octets.slice s.encode 4 mode.n fits = s.c :=
    Octets.slice_of_layout (Bytes.ofUInt32 mode.typecode) _ rfl rfl fits
  have y (fits : mode.chains * mode.n ≤ (s.encode.drop (4 + mode.n)).length) :
      Octets.pieces mode.n mode.chains (s.encode.drop (4 + mode.n)) fits = s.y := by
    have front : (Bytes.ofUInt32 mode.typecode ++ s.c.bytes).length = 4 + mode.n := by
      rw [List.length_append, Bytes.length_ofUInt32, s.c.length_eq]
    refine Octets.pieces_join ?_ s.y_length fits
    rw [encode, ← List.append_assoc, List.drop_left' front]
  simp only [fields, c, y]

theorem Signature.decode_encode (registered : mode.Registered) (s : Signature mode) :
    decode mode s.encode = .ok s := by
  have typecode : s.encode.uint32At? 0 = some mode.typecode := Bytes.uint32At?_of_layout [] _ rfl rfl
  simp only [decode, typecode, registered.expectTypecode, s.length_encode, fields_encode]
  rfl

end OneTime

/-! ## Many-time keys and signatures -/

namespace ManyTime

variable {mode : Mode}

/-- The typecodes name registered sets, whatever the height of the tree. -/
structure Mode.Registered (mode : Mode) : Prop where
  manyTime : ∃ s : ParameterSet, s.typecode = mode.typecode
  oneTime : mode.oneTime.Registered

theorem ParameterSet.registered_modeWith (s : ParameterSet) (H : Digest)
    (oneTime : OneTime.ParameterSet) : (s.modeWith H oneTime).Registered :=
  ⟨⟨s, rfl⟩, oneTime.registered_modeWith H⟩

theorem Mode.Registered.expectTypecode (registered : mode.Registered) :
    mode.expectTypecode mode.typecode = .ok () := by
  obtain ⟨s, same⟩ := registered.manyTime
  simp only [Mode.expectTypecode, ← same, ParameterSet.lookup_typecode, if_true]

theorem Mode.Registered.expectHeader (registered : mode.Registered) (short : Error) (rest : Bytes) :
    mode.expectHeader short (mode.header ++ rest) = .ok () := by
  have manyTime : (mode.header ++ rest).uint32At? 0 = some mode.typecode :=
    Bytes.uint32At?_of_layout [] _ rfl rfl
  have oneTime : (mode.header ++ rest).uint32At? 4 = some mode.oneTime.typecode :=
    Bytes.uint32At?_of_layout (Bytes.ofUInt32 mode.typecode) _ rfl rfl
  simp only [Mode.expectHeader, manyTime, oneTime, registered.expectTypecode,
    registered.oneTime.expectTypecode]
  rfl

theorem PublicKey.decode_encode (registered : mode.Registered) (key : PublicKey mode) :
    decode mode key.encode = .ok key := by
  have header := registered.expectHeader .invalidPublicKey (key.id.bytes ++ key.root.bytes)
  have id (fits : 8 + 16 ≤ key.encode.length) : Octets.slice key.encode 8 16 fits = key.id :=
    Octets.slice_of_layout mode.header _ rfl rfl fits
  have root (fits : 24 + mode.n ≤ key.encode.length) : Octets.slice key.encode 24 mode.n fits = key.root := by
    refine Octets.slice_of_layout (mode.header ++ key.id.bytes) [] ?_ ?_ fits
    · rw [encode, List.append_nil, List.append_assoc]
    · rw [List.length_append, Mode.length_header, key.id.length_eq]
  rw [← encode] at header
  simp only [decode, header, key.length_encode, id, root]
  rfl

theorem PrivateKey.decode_encode (registered : mode.Registered) {key : PrivateKey mode}
    (inRange : key.q ≤ mode.leaves) : decode mode key.encode = .ok key := by
  have header := registered.expectHeader .invalidPrivateKeyEncoding
    (Bytes.ofUInt32 key.q ++ (key.id.bytes ++ key.seed.bytes))
  have q (fits : 8 + 4 ≤ key.encode.length) : key.encode.uint32At 8 fits = key.q :=
    Bytes.uint32At_of_layout mode.header _ rfl rfl fits
  have id (fits : 12 + 16 ≤ key.encode.length) : Octets.slice key.encode 12 16 fits = key.id :=
    Octets.slice_of_layout (mode.header ++ Bytes.ofUInt32 key.q) _ rfl rfl fits
  have seed (fits : 28 + mode.n ≤ key.encode.length) : Octets.slice key.encode 28 mode.n fits = key.seed := by
    refine Octets.slice_of_layout (mode.header ++ (Bytes.ofUInt32 key.q ++ key.id.bytes)) [] ?_ ?_ fits
    · rw [encode, List.append_nil, List.append_assoc, List.append_assoc]
    · rw [List.length_append, List.length_append, Mode.length_header, Bytes.length_ofUInt32,
        key.id.length_eq]
  rw [← encode] at header
  simp only [decode, header, key.length_encode, q, id, seed, if_pos inRange]
  rfl

theorem Signature.withPath_encode (s : Signature mode) (exact : s.encode.length = mode.signatureLength) :
    withPath s.leaf s.oneTime s.encode exact = s := by
  have front : (Bytes.ofUInt32 s.leaf.index ++ (s.oneTime.encode ++ Bytes.ofUInt32 mode.typecode)).length =
      8 + mode.oneTime.signatureLength := by
    simp only [List.length_append, s.oneTime.length_encode, Bytes.length_ofUInt32]
    omega
  have path (fits : mode.height * mode.n ≤ (s.encode.drop (8 + mode.oneTime.signatureLength)).length) :
      Octets.pieces mode.n mode.height (s.encode.drop (8 + mode.oneTime.signatureLength)) fits =
        s.path := by
    refine Octets.pieces_join ?_ s.path_length fits
    rw [encode, ← List.append_assoc s.oneTime.encode, ← List.append_assoc, List.drop_left' front]
  simp only [withPath, path]

theorem Signature.uint32At?_encode_oneTime (s : Signature mode) :
    s.encode.uint32At? 4 = some mode.oneTime.typecode :=
  Bytes.uint32At?_of_layout (Bytes.ofUInt32 s.leaf.index)
    (s.oneTime.c.bytes ++ Octets.join s.oneTime.y ++
      (Bytes.ofUInt32 mode.typecode ++ Octets.join s.path)) rfl rfl

theorem Signature.uint32At?_encode_manyTime (s : Signature mode) :
    s.encode.uint32At? (4 + mode.oneTime.signatureLength) = some mode.typecode := by
  refine Bytes.uint32At?_of_layout (Bytes.ofUInt32 s.leaf.index ++ s.oneTime.encode)
    (Octets.join s.path) ?_ ?_
  · rw [encode, List.append_assoc]
  · rw [List.length_append, s.oneTime.length_encode, Bytes.length_ofUInt32]

theorem Signature.decode_encode (registered : mode.Registered) (s : Signature mode) :
    decode mode s.encode = .ok s := by
  have q : s.encode.uint32At? 0 = some s.leaf.index := Bytes.uint32At?_of_layout [] _ rfl rfl
  have inner : (s.encode.drop 4).take mode.oneTime.signatureLength = s.oneTime.encode :=
    List.take_left' s.oneTime.length_encode
  simp only [decode, q, s.uint32At?_encode_oneTime, registered.oneTime.expectTypecode,
    s.uint32At?_encode_manyTime, registered.expectTypecode, s.leaf.index_lt, s.length_encode, inner,
    OneTime.Signature.decode_encode registered.oneTime]
  exact congrArg Except.ok (s.withPath_encode s.length_encode)

/-! ## Verification of byte strings -/

namespace PublicKey

variable {key : PublicKey mode} {msg : Bytes} {s : Signature mode}

theorem check_eq_ok_iff : key.check msg s = .ok () ↔ key.root = s.recover key.id msg := by
  rw [check]
  split
  · next same => exact ⟨fun _ => same, fun _ => rfl⟩
  · next different => exact ⟨nofun, fun same => absurd same different⟩

theorem check_of_ne_ok (rejected : key.check msg s ≠ .ok ()) :
    key.check msg s = .error .verificationFailed :=
  if_neg fun same => rejected (check_eq_ok_iff.2 same)

end PublicKey

variable {H : Digest}

theorem readParameterSets_append (set : ParameterSet) (oneTime : OneTime.ParameterSet) (rest : Bytes) :
    readParameterSets ((set.modeWith H oneTime).header ++ rest) = .ok (set, oneTime) := by
  have manyTimeType : ((set.modeWith H oneTime).header ++ rest).uint32At? 0 = some set.typecode :=
    Bytes.uint32At?_of_layout [] _ rfl rfl
  have oneTimeType : ((set.modeWith H oneTime).header ++ rest).uint32At? 4 = some oneTime.typecode :=
    Bytes.uint32At?_of_layout (Bytes.ofUInt32 set.typecode) _ rfl rfl
  simp only [readParameterSets, manyTimeType, oneTimeType, ParameterSet.lookup_typecode,
    OneTime.ParameterSet.lookup_typecode]
  rfl

theorem Mode.verifyBytes_encode (registered : mode.Registered) (key : PublicKey mode) (msg : Bytes)
    (s : Signature mode) : mode.verifyBytes key.encode msg s.encode = key.check msg s := by
  rw [Mode.verifyBytes, key.decode_encode registered, s.decode_encode registered]
  rfl

theorem verify_append {set : ParameterSet} {oneTime : OneTime.ParameterSet}
    (sizes : set.size = oneTime.size) (rest msg signature : Bytes) :
    (verifyWith H ((set.modeWith H oneTime).header ++ rest) msg signature).value =
      (set.modeWith H oneTime).verifyBytes ((set.modeWith H oneTime).header ++ rest) msg signature := by
  simp only [verifyWith, readParameterSets_append, if_pos sizes, Logged.value_pure]

theorem verify_encode {set : ParameterSet} {oneTime : OneTime.ParameterSet}
    (sizes : set.size = oneTime.size) (key : PublicKey (set.modeWith H oneTime)) (msg : Bytes)
    (s : Signature (set.modeWith H oneTime)) :
    (verifyWith H key.encode msg s.encode).value = key.check msg s :=
  (verify_append sizes _ msg s.encode).trans
    (Mode.verifyBytes_encode (set.registered_modeWith H oneTime) key msg s)

end ManyTime

end HashSig
