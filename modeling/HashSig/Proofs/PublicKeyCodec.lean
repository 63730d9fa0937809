import HashSig.Proofs.Codec
import HashSig.Proofs.Safety

/-! Public keys and their bytes stand for each other.

A public key has one written form (`PublicKey.codec`), and every other string is refused
for the first check that it fails (`PublicKey.reports_decode`), the length being the last
of them. After that nothing can go wrong: a reader that takes the rest for granted meets no
fault (`PublicKey.answers_decodeStrictly`).
-/

set_option autoImplicit false

namespace HashSig

open Guarded

/-- Values and strings stand for each other, a string that is refused is refused for the
first check that it fails, and the strict reader answers as the reader does. -/
structure Classifies {α : Type} (encode : α → Bytes) (decode : Bytes → Except Error α)
    (strictly : Bytes → Attempt α) (length : Nat) (checks : Bytes → List Check) : Prop where
  codec : Codec encode decode length
  eq_iff : ∀ a b x y, decode a = .ok x → decode b = .ok y → (x = y ↔ a = b)
  reports : ∀ b, Reports (checks b) Succeeds (decode b)
  strictly : ∀ b, (strictly b).Answers (decode b)

/-! ## One-time keys -/

namespace OneTime

variable {mode : Mode}

def Mode.publicKeyChecks (mode : Mode) (b : Bytes) : List Check :=
  let typecode := b.wordAt 0
  [⟨b.length < 4, .invalidPublicKey⟩,
    ⟨Standard.oneTimeRow? typecode.toNat = none, .unsupportedParameter typecode⟩,
    ⟨typecode ≠ mode.typecode, .wrongAlgorithm mode.typecode typecode⟩,
    ⟨b.length ≠ 24 + mode.n, .invalidPublicKey⟩]

namespace PublicKey

theorem codec (registered : mode.Registered) : Codec encode (decode mode) mode.publicKeyLength :=
  ⟨length_encode, decode_encode registered, fun _ _ => encode_of_decode⟩

theorem reports_decode (mode : Mode) (b : Bytes) :
    Reports (mode.publicKeyChecks b) Succeeds (decode mode b) := by
  refine .cons (fun short => ?_) fun long => ?_
  · rw [decode, Bytes.uint32At?_eq_none_iff.2 short]
    rfl
  have typecode : b.uint32At? 0 = some (b.wordAt 0) := Bytes.uint32At?_eq_wordAt (by omega)
  simp only [decode, typecode]
  refine (mode.reports_expectTypecode _).bind fun _ _ => ?_
  refine .cons (fun wrong => dif_neg wrong) fun right => ?_
  rw [dif_pos (of_not_not right)]
  exact .nil ⟨_, rfl⟩

/-- Reads as `PublicKey.decode` does, and takes for granted that a string of the right
length has all the fields. -/
def decodeStrictly (mode : Mode) (b : Bytes) : Attempt (PublicKey mode) := do
  let some typecode := b.uint32At? 0 | throw .invalidPublicKey
  mode.expectTypecode typecode
  let rest ← dropFrom b 4
  if rest.length = 16 + 4 + mode.n then
    let (id, rest) ← splitAt rest 16
    let (q, k) ← splitAt rest 4
    let q ← (granted (q.uint32At? 0) : Guarded UInt32)
    let id ← (granted (Octets.ofBytes? 16 id) : Guarded Identifier)
    let k ← (granted (Octets.ofBytes? mode.n k) : Guarded (Octets mode.n))
    return ⟨q, id, k⟩
  else
    throw .invalidPublicKey

theorem answers_decodeStrictly (mode : Mode) (b : Bytes) :
    (decodeStrictly mode b).Answers (decode mode b) := by
  rw [decodeStrictly, decode]
  cases found : b.uint32At? 0 with
  | none => exact .throw _
  | some typecode =>
    refine .bind (.lift _) fun _ _ => ?_
    have inside := Bytes.le_length_of_uint32At? found
    refine .guarded (dropFrom_eq inside) ?_
    have rest : (b.drop 4).length = 16 + 4 + mode.n ↔ b.length = mode.publicKeyLength := by
      rw [List.length_drop, Mode.publicKeyLength]
      omega
    by_cases exact : b.length = mode.publicKeyLength
    · have whole : b.length = 24 + mode.n := exact
      rw [if_pos (rest.2 exact), dif_pos exact]
      refine .guarded (splitAt_eq (by omega)) ?_
      refine .guarded (splitAt_eq (by rw [List.length_drop]; omega)) ?_
      have q := Bytes.uint32At?_take_drop (Bytes.uint32At?_of_le (show 20 + 4 ≤ b.length by omega)) (Nat.le_refl 4)
      have id := Octets.ofBytes?_take_drop (show 4 + 16 ≤ b.length by omega)
      have k := Octets.ofBytes?_drop whole
      simp only [List.drop_drop]
      refine .guarded (granted_eq q) (.guarded (granted_eq id) (.guarded (granted_eq k) ?_))
      exact .pure _
    · rw [if_neg (mt rest.1 exact), dif_neg exact]
      exact .throw _

theorem classifies (registered : mode.Registered) :
    Classifies encode (decode mode) (decodeStrictly mode) (24 + mode.n) mode.publicKeyChecks where
  codec := codec registered
  eq_iff _ _ _ _ := (codec registered).eq_iff_of_decode
  reports := reports_decode mode
  strictly := answers_decodeStrictly mode

end PublicKey

end OneTime

/-! ## Many-time keys -/

namespace ManyTime

variable {mode : Mode}

def Mode.publicKeyChecks (mode : Mode) (b : Bytes) : List Check :=
  mode.headerChecks .invalidPublicKey b ++ [⟨b.length ≠ 24 + mode.n, .invalidPublicKey⟩]

namespace PublicKey

theorem codec (registered : mode.Registered) : Codec encode (decode mode) mode.publicKeyLength :=
  ⟨length_encode, decode_encode registered, fun _ _ => encode_of_decode⟩

theorem reports_decode (mode : Mode) (b : Bytes) :
    Reports (mode.publicKeyChecks b) Succeeds (decode mode b) := by
  refine (mode.reports_expectHeader .invalidPublicKey b).bind fun _ _ => ?_
  refine .cons (fun wrong => dif_neg wrong) fun right => ?_
  rw [dif_pos (of_not_not right)]
  exact .nil ⟨_, rfl⟩

def decodeStrictly (mode : Mode) (b : Bytes) : Attempt (PublicKey mode) := do
  mode.expectHeader .invalidPublicKey b
  if b.length = 24 + mode.n then
    let (id, root) ← splitAt (← dropFrom b 8) 16
    let id ← (granted (Octets.ofBytes? 16 id) : Guarded Identifier)
    assert (8 ≤ root.length)
    return ← (granted (ofRoot mode id root).toOption : Guarded (PublicKey mode))
  else
    throw .invalidPublicKey

theorem answers_decodeStrictly (mode : Mode) (b : Bytes) :
    (decodeStrictly mode b).Answers (decode mode b) := by
  rw [decodeStrictly, decode]
  refine .bind (.lift _) fun _ _ => ?_
  by_cases exact : b.length = mode.publicKeyLength
  · have whole : b.length = 24 + mode.n := exact
    have id := Octets.ofBytes?_take_drop (show 8 + 16 ≤ b.length by omega)
    have root := Octets.ofBytes?_drop whole
    have long : 8 ≤ (b.drop 24).length := by
      have node : 24 ≤ mode.n := mode.hash.size.le_octets
      rw [List.length_drop]
      omega
    have made : (ofRoot mode (Octets.slice b 8 16 (by omega)) (b.drop 24)).toOption =
        some ⟨Octets.slice b 8 16 (by omega), Octets.slice b 24 mode.n (by omega)⟩ := by
      rw [ofRoot, root]
      rfl
    rw [if_pos exact, dif_pos exact]
    refine .guarded (dropFrom_eq (by omega)) (.guarded (splitAt_eq (by rw [List.length_drop]; omega)) ?_)
    simp only [List.drop_drop]
    refine .guarded (granted_eq id) (.guarded (assert_eq long) ?_)
    rw [granted_eq made]
    exact .pure _
  · rw [if_neg exact, dif_neg exact]
    exact .throw _

theorem classifies (registered : mode.Registered) :
    Classifies encode (decode mode) (decodeStrictly mode) (24 + mode.n) mode.publicKeyChecks where
  codec := codec registered
  eq_iff _ _ _ _ := (codec registered).eq_iff_of_decode
  reports := reports_decode mode
  strictly := answers_decodeStrictly mode

end PublicKey

/-- In the modes with registered typecodes, public keys and their bytes stand for each
other: a string is read as a key exactly if it is the typecodes and the fields of the key
in their order. Equal keys are those with equal bytes, a string that is refused is refused
for the first check that it fails, and nothing fails after the checks. -/
theorem public_keys_match_bytes :
    (∀ mode : Mode, mode.Registered →
      Classifies PublicKey.encode (PublicKey.decode mode) (PublicKey.decodeStrictly mode) (24 + mode.n)
        mode.publicKeyChecks ∧
      ∀ b (key : PublicKey mode), PublicKey.decode mode b = .ok key ↔
        b = Bytes.ofUInt32 mode.typecode ++ Bytes.ofUInt32 mode.oneTime.typecode ++
          (key.id.bytes ++ key.root.bytes)) ∧
    ∀ mode : OneTime.Mode, mode.Registered →
      Classifies OneTime.PublicKey.encode (OneTime.PublicKey.decode mode)
        (OneTime.PublicKey.decodeStrictly mode) (24 + mode.n) mode.publicKeyChecks ∧
      ∀ b (key : OneTime.PublicKey mode), OneTime.PublicKey.decode mode b = .ok key ↔
        b = Bytes.ofUInt32 mode.typecode ++
          (key.id.bytes ++ (Bytes.ofUInt32 key.q ++ key.k.bytes)) := by
  constructor
  · intro mode registered
    have classifies := PublicKey.classifies registered
    exact ⟨classifies, fun b key => classifies.codec.decode_eq_ok_iff.trans eq_comm⟩
  · intro mode registered
    have classifies := OneTime.PublicKey.classifies registered
    exact ⟨classifies, fun b key => classifies.codec.decode_eq_ok_iff.trans eq_comm⟩

theorem public_keys_match_bytes_oneLeafLeft :
    let mode := ParameterSet.mode ⟨.n24, .h5⟩ ⟨.n24, .w8⟩
    let key : PublicKey mode := oneLeafLeft.publicHalf
    let oneTime : OneTime.PublicKey mode.oneTime := ⟨31, Octets.zero 16, Octets.zero 24⟩
    mode.Registered ∧ mode.oneTime.Registered ∧ key.encode.length = 48 ∧ oneTime.encode.length = 48 ∧
      PublicKey.decode mode key.encode = .ok key ∧
      OneTime.PublicKey.decode mode.oneTime oneTime.encode = .ok oneTime ∧
      Reports (mode.publicKeyChecks (key.encode ++ [0])) Succeeds
        (PublicKey.decode mode (key.encode ++ [0])) := by
  intro mode key oneTime
  have registered := ParameterSet.registered_modeWith ⟨.n24, .h5⟩ Sha256.digest ⟨.n24, .w8⟩
  have keys := (public_keys_match_bytes.1 mode registered).1
  have oneTimeKeys := (public_keys_match_bytes.2 mode.oneTime registered.oneTime).1
  have length : 24 + mode.n = 48 := by decide
  exact ⟨registered, registered.oneTime, (keys.codec.length_encode key).trans length,
    (oneTimeKeys.codec.length_encode oneTime).trans length, keys.codec.decode_encode key,
    oneTimeKeys.codec.decode_encode oneTime, keys.reports _⟩

end ManyTime

end HashSig
