import HashSig.Proofs.Decoding
import HashSig.Proofs.LeafUse

/-! Signatures and their bytes stand for each other.

A signature has one written form, of one length, and no other string is read as it
(`Codec`). So two signatures that were read are equal exactly if their bytes are: no
byte of a signature can be changed without changing the signature.
-/

set_option autoImplicit false

namespace HashSig

/-- Values are written as strings of one length, what is written is read back, and
nothing else is read. -/
structure Codec {α : Type} (encode : α → Bytes) (decode : Bytes → Except Error α) (length : Nat) :
    Prop where
  length_encode : ∀ a, (encode a).length = length
  decode_encode : ∀ a, decode (encode a) = .ok a
  encode_of_decode : ∀ b a, decode b = .ok a → encode a = b

namespace Codec

variable {α : Type} {encode : α → Bytes} {decode : Bytes → Except Error α} {length : Nat}
  {a b : Bytes} {x y : α}

theorem decode_eq_ok_iff (codec : Codec encode decode length) : decode a = .ok x ↔ encode x = a := by
  constructor
  · exact codec.encode_of_decode a x
  · rintro rfl
    exact codec.decode_encode x

theorem eq_iff_of_decode (codec : Codec encode decode length) (readX : decode a = .ok x)
    (readY : decode b = .ok y) : x = y ↔ a = b := by
  rw [← codec.encode_of_decode a x readX, ← codec.encode_of_decode b y readY]
  constructor
  · rintro rfl
    rfl
  · intro same
    have again := codec.decode_encode x
    rw [same, codec.decode_encode] at again
    exact (Except.ok.inj again).symm

end Codec

theorem OneTime.Signature.codec {mode : OneTime.Mode} (registered : mode.Registered) :
    Codec encode (decode mode) mode.signatureLength :=
  ⟨length_encode, decode_encode registered, fun _ _ => encode_of_decode⟩

namespace ManyTime

variable {mode : Mode}

namespace Signature

theorem codec (registered : mode.Registered) : Codec encode (decode mode) mode.signatureLength :=
  ⟨length_encode, decode_encode registered, fun _ _ => encode_of_decode⟩

-- The one-time part stands behind the leaf number.
theorem encode_oneTime (s : Signature mode) :
    s.oneTime.encode = (s.encode.drop 4).take mode.oneTime.signatureLength :=
  (List.take_left' s.oneTime.length_encode).symm

end Signature

/-- In a mode with registered typecodes, signatures and their bytes stand for each
other. A signature that was read has a leaf of the tree, a value of each chain and a
sibling for each level, and its one-time part is what stands behind the leaf number.
One-time signatures have the same property on their own. -/
theorem signatures_match_bytes :
    (∀ mode : Mode, mode.Registered →
      Codec Signature.encode (Signature.decode mode) mode.signatureLength ∧
      (∀ a b (s t : Signature mode), Signature.decode mode a = .ok s →
        Signature.decode mode b = .ok t → (s = t ↔ a = b)) ∧
      ∀ b (s : Signature mode), Signature.decode mode b = .ok s →
        (s.leaf.index < mode.leaves ∧ s.oneTime.y.length = mode.oneTime.chains ∧
          s.path.length = mode.height) ∧
        s.oneTime.encode = (b.drop 4).take mode.oneTime.signatureLength ∧
        OneTime.Signature.decode mode.oneTime ((b.drop 4).take mode.oneTime.signatureLength) =
          .ok s.oneTime) ∧
    ∀ mode : OneTime.Mode, mode.Registered →
      Codec OneTime.Signature.encode (OneTime.Signature.decode mode) mode.signatureLength ∧
      ∀ a b (s t : OneTime.Signature mode), OneTime.Signature.decode mode a = .ok s →
        OneTime.Signature.decode mode b = .ok t → (s = t ↔ a = b) := by
  constructor
  · intro mode registered
    have codec := Signature.codec registered
    refine ⟨codec, fun a b s t => codec.eq_iff_of_decode, ?_⟩
    intro b s read
    obtain rfl := codec.decode_eq_ok_iff.1 read
    refine ⟨⟨s.leaf.index_lt, s.oneTime.y_length, s.path_length⟩, s.encode_oneTime, ?_⟩
    rw [← s.encode_oneTime]
    exact s.oneTime.decode_encode registered.oneTime
  · intro mode registered
    have codec := OneTime.Signature.codec registered
    exact ⟨codec, fun a b s t => codec.eq_iff_of_decode⟩

theorem signatures_match_bytes_oneLeafLeft :
    let mode := ParameterSet.mode ⟨.n24, .h5⟩ ⟨.n24, .w8⟩
    let s := oneLeafLeft.signNext (by decide) [1] none
    let t := oneLeafLeft.signNext (by decide) [2] (some (Octets.zero 24))
    mode.Registered ∧ mode.oneTime.Registered ∧ s.encode.length = 780 ∧
      Signature.decode mode s.encode = .ok s ∧ Signature.decode mode t.encode = .ok t ∧
      (s = t ↔ s.encode = t.encode) ∧
      s.oneTime.encode = (s.encode.drop 4).take mode.oneTime.signatureLength ∧
      OneTime.Signature.decode mode.oneTime s.oneTime.encode = .ok s.oneTime := by
  intro mode s t
  have registered := ParameterSet.registered_modeWith ⟨.n24, .h5⟩ Sha256.digest ⟨.n24, .w8⟩
  obtain ⟨codec, equal, parts⟩ := signatures_match_bytes.1 mode registered
  have oneTime := (signatures_match_bytes.2 mode.oneTime registered.oneTime).1
  have length : mode.signatureLength = 780 := by decide
  have readS := codec.decode_encode s
  have readT := codec.decode_encode t
  exact ⟨registered, registered.oneTime, (codec.length_encode s).trans length, readS, readT,
    equal _ _ _ _ readS readT, (parts _ _ readS).2.1, oneTime.decode_encode s.oneTime⟩

end ManyTime

end HashSig
