import HashSig.Proofs.Conformance

/-! Which error is reported.

A string is refused for the first of a list of checks that it fails (`Reports`). The
lists here speak of lengths, of the standard's tables and of words at fixed places
only. Reading a signature in a mode reports its list (`Signature.reports_decode`), and
so does the verifier of byte strings, whose list begins with what it asks of the public
key (`reports_verify`).
-/

set_option autoImplicit false

namespace HashSig

/-! ## Checks in order -/

structure Check where
  fails : Bool
  error : Error

/-- The error of the first check that fails. -/
def refusal (checks : List Check) : Option Error := (checks.find? Check.fails).map Check.error

section

variable {α β : Type}

def Succeeds (result : Except Error α) : Prop := ∃ a, result = .ok a

/-- The result is the error of the first check that fails; if none does, it has the
property `passed`. -/
def Reports (checks : List Check) (passed : Except Error α → Prop) (result : Except Error α) : Prop :=
  match refusal checks with
  | some e => result = .error e
  | none => passed result

namespace Reports

variable {checks more : List Check} {passed : Except Error α → Prop}
  {result : Except Error α}

theorem nil (holds : passed result) : Reports [] passed result := holds

theorem cons {fails : Prop} [Decidable fails] {e : Error} (failed : fails → result = .error e)
    (others : ¬ fails → Reports checks passed result) : Reports (⟨fails, e⟩ :: checks) passed result := by
  rw [Reports, refusal, List.find?_cons]
  by_cases outcome : fails
  · rw [decide_eq_true outcome]
    exact failed outcome
  · rw [decide_eq_false outcome]
    exact others outcome

theorem bind {first : Except Error β} {next : β → Except Error α}
    (reports : Reports checks Succeeds first)
    (others : ∀ b, first = .ok b → Reports more passed (next b)) :
    Reports (checks ++ more) passed (first >>= next) := by
  rw [Reports, refusal] at reports ⊢
  rw [List.find?_append]
  cases found : checks.find? Check.fails with
  | some check =>
    rw [found] at reports
    rw [show first = .error check.error from reports]
    rfl
  | none =>
    rw [found] at reports
    obtain ⟨b, rfl⟩ := reports
    exact others b rfl

theorem map {first : Except Error β} (f : β → α) (reports : Reports checks Succeeds first) :
    Reports checks Succeeds (f <$> first) := by
  rw [Reports] at reports ⊢
  cases found : refusal checks with
  | some e =>
    rw [found] at reports
    rw [show first = .error e from reports]
    rfl
  | none =>
    rw [found] at reports
    obtain ⟨b, rfl⟩ := reports
    exact ⟨f b, rfl⟩

end Reports

end

/-- The word that begins at `start`, or zero if the string does not go on for as long. -/
def Bytes.wordAt (b : Bytes) (start : Nat) : UInt32 := (b.uint32At? start).getD 0

theorem Bytes.uint32At?_eq_wordAt {b : Bytes} {start : Nat} (fits : start + 4 ≤ b.length) :
    b.uint32At? start = some (b.wordAt start) := by
  rw [wordAt, uint32At?_of_le fits]
  rfl

/-! ## Typecodes -/

section

variable {σ : Type} {unknown : Prop} [Decidable unknown] {typecode : UInt32}

-- What has a typecode is looked for in a list.
theorem Reports.find {all : List σ} {code : σ → UInt32} {e : Error} {result : Except Error σ}
    (listed : ¬ unknown ↔ ∃ s ∈ all, code s = typecode)
    (found : ∀ s, all.find? (fun s => code s == typecode) = some s → result = .ok s)
    (missing : all.find? (fun s => code s == typecode) = none → result = .error e) :
    Reports [⟨unknown, e⟩] Succeeds result := by
  cases search : all.find? fun s => code s == typecode with
  | some s =>
    have same : code s = typecode := by simpa using List.find?_some search
    have known := listed.2 ⟨s, List.mem_of_find?_eq_some search, same⟩
    exact .cons (fun unknown => absurd unknown known) fun _ => .nil ⟨s, found s search⟩
  | none =>
    refine .cons (fun _ => missing search) fun known => ?_
    obtain ⟨s, member, same⟩ := listed.1 known
    exact absurd (beq_iff_eq.2 same) (List.find?_eq_none.1 search s member)

-- A typecode has to be known, and then to be the right one.
theorem Reports.expect {lookup : Except Error σ} {own : UInt32} {result : Except Error Unit}
    (reports : Reports [⟨unknown, .unsupportedParameter typecode⟩] Succeeds lookup)
    (parts : result = lookup >>= fun _ =>
      if typecode = own then .ok () else .error (.wrongAlgorithm own typecode)) :
    Reports [⟨unknown, .unsupportedParameter typecode⟩,
      ⟨typecode ≠ own, .wrongAlgorithm own typecode⟩] Succeeds result := by
  rw [parts]
  refine reports.bind fun _ _ => ?_
  exact .cons (fun wrong => if_neg wrong) fun right => .nil ⟨(), if_pos (of_not_not right)⟩

end

namespace OneTime

namespace ParameterSet

theorem oneTimeRow?_typecode (s : ParameterSet) :
    Standard.oneTimeRow? s.typecode.toNat = some s.row :=
  Standard.oneTimeRow?_eq_some_iff.2 ⟨s, rfl, rfl⟩

theorem known_iff {typecode : UInt32} :
    Standard.oneTimeRow? typecode.toNat ≠ none ↔ ∃ s ∈ all, s.typecode = typecode := by
  constructor
  · intro known
    obtain ⟨row, found⟩ := Option.ne_none_iff_exists'.1 known
    obtain ⟨s, same, -⟩ := Standard.oneTimeRow?_eq_some_iff.1 found
    exact ⟨s, s.mem_all, UInt32.toNat_inj.1 same⟩
  · rintro ⟨s, -, rfl⟩
    rw [s.oneTimeRow?_typecode]
    nofun

theorem reports_lookup (typecode : UInt32) :
    Reports [⟨Standard.oneTimeRow? typecode.toNat = none, .unsupportedParameter typecode⟩] Succeeds
      (lookup typecode) :=
  .find known_iff (fun s found => by rw [lookup, found]) (fun missing => by rw [lookup, missing])

theorem typecode_of_lookup {typecode : UInt32} {s : ParameterSet} (found : lookup typecode = .ok s) :
    s.typecode = typecode := by
  rw [lookup] at found
  split at found
  · next other listed =>
    cases found
    simpa using List.find?_some listed
  · cases found

end ParameterSet

theorem Mode.reports_expectTypecode (mode : Mode) (got : UInt32) :
    Reports [⟨Standard.oneTimeRow? got.toNat = none, .unsupportedParameter got⟩,
      ⟨got ≠ mode.typecode, .wrongAlgorithm mode.typecode got⟩] Succeeds (mode.expectTypecode got) := by
  refine (ParameterSet.reports_lookup got).expect ?_
  rw [expectTypecode]
  cases ParameterSet.lookup got <;> rfl

end OneTime

namespace ManyTime

namespace ParameterSet

theorem treeRow?_typecode (s : ParameterSet) : Standard.treeRow? s.typecode.toNat = some s.row :=
  Standard.treeRow?_eq_some_iff.2 ⟨s, rfl, rfl⟩

theorem known_iff {typecode : UInt32} :
    Standard.treeRow? typecode.toNat ≠ none ↔ ∃ s ∈ all, s.typecode = typecode := by
  constructor
  · intro known
    obtain ⟨row, found⟩ := Option.ne_none_iff_exists'.1 known
    obtain ⟨s, same, -⟩ := Standard.treeRow?_eq_some_iff.1 found
    exact ⟨s, s.mem_all, UInt32.toNat_inj.1 same⟩
  · rintro ⟨s, -, rfl⟩
    rw [s.treeRow?_typecode]
    nofun

theorem reports_lookup (typecode : UInt32) :
    Reports [⟨Standard.treeRow? typecode.toNat = none, .unsupportedParameter typecode⟩] Succeeds
      (lookup typecode) :=
  .find known_iff (fun s found => by rw [lookup, found]) (fun missing => by rw [lookup, missing])

theorem typecode_of_lookup {typecode : UInt32} {s : ParameterSet} (found : lookup typecode = .ok s) :
    s.typecode = typecode := by
  rw [lookup] at found
  split at found
  · next other listed =>
    cases found
    simpa using List.find?_some listed
  · cases found

end ParameterSet

theorem Mode.reports_expectTypecode (mode : Mode) (got : UInt32) :
    Reports [⟨Standard.treeRow? got.toNat = none, .unsupportedParameter got⟩,
      ⟨got ≠ mode.typecode, .wrongAlgorithm mode.typecode got⟩] Succeeds (mode.expectTypecode got) := by
  refine (ParameterSet.reports_lookup got).expect ?_
  rw [expectTypecode]
  cases ParameterSet.lookup got <;> rfl

def Mode.headerChecks (mode : Mode) (short : Error) (b : Bytes) : List Check :=
  let manyTime := b.wordAt 0
  let oneTime := b.wordAt 4
  [⟨b.length < 8, short⟩,
    ⟨Standard.treeRow? manyTime.toNat = none, .unsupportedParameter manyTime⟩,
    ⟨manyTime ≠ mode.typecode, .wrongAlgorithm mode.typecode manyTime⟩,
    ⟨Standard.oneTimeRow? oneTime.toNat = none, .unsupportedParameter oneTime⟩,
    ⟨oneTime ≠ mode.oneTime.typecode, .wrongAlgorithm mode.oneTime.typecode oneTime⟩]

theorem Mode.reports_expectHeader (mode : Mode) (short : Error) (b : Bytes) :
    Reports (mode.headerChecks short b) Succeeds (mode.expectHeader short b) := by
  refine .cons (fun few => ?_) fun long => ?_
  · have missing : b.uint32At? 4 = none := Bytes.uint32At?_eq_none_iff.2 few
    rw [expectHeader, missing]
    cases b.uint32At? 0 <;> rfl
  have manyTime : b.uint32At? 0 = some (b.wordAt 0) := Bytes.uint32At?_eq_wordAt (by omega)
  have oneTime : b.uint32At? 4 = some (b.wordAt 4) := Bytes.uint32At?_eq_wordAt (by omega)
  simp only [expectHeader, manyTime, oneTime]
  exact (mode.reports_expectTypecode _).bind fun _ _ => mode.oneTime.reports_expectTypecode _

end ManyTime

/-! ## Signatures -/

-- A word that is read at the front of a part of a string.
theorem Bytes.uint32At?_take_drop {b : Bytes} {start length : Nat} {x : UInt32}
    (found : b.uint32At? start = some x) (fits : 4 ≤ length) :
    Bytes.uint32At? ((b.drop start).take length) 0 = some x := by
  refine uint32At?_of_layout [] ((b.drop (start + 4)).take (length - 4)) ?_ rfl
  rw [← ofUInt32_append_drop found, List.take_append, length_ofUInt32,
    List.take_of_length_le (l := ofUInt32 x) fits]
  rfl

theorem OneTime.Signature.exists_decode {mode : Mode} {b : Bytes} {typecode : UInt32}
    (found : b.uint32At? 0 = some typecode) (expected : mode.expectTypecode typecode = .ok ())
    (exact : b.length = mode.signatureLength) : ∃ s, decode mode b = .ok s := by
  simp only [decode, found, expected, exact]
  exact ⟨_, rfl⟩

namespace ManyTime

/-- What the checks of a signature depend on. -/
structure Shape where
  manyTime : UInt32
  oneTime : UInt32
  oneTimeLength : Nat
  height : Nat
  nodeLength : Nat

namespace Shape

def length (shape : Shape) : Nat := 8 + shape.oneTimeLength + shape.height * shape.nodeLength

/-- What is asked of a signature, in order. Its typecodes stand at byte four and behind
the one-time part. -/
def signatureChecks (shape : Shape) (b : Bytes) : List Check :=
  let wrongLength := Error.invalidSignatureLength shape.length b.length
  let oneTime := b.wordAt 4
  let manyTime := b.wordAt (4 + shape.oneTimeLength)
  [⟨b.length < 8, wrongLength⟩,
    ⟨Standard.oneTimeRow? oneTime.toNat = none, .unsupportedParameter oneTime⟩,
    ⟨oneTime ≠ shape.oneTime, .wrongAlgorithm shape.oneTime oneTime⟩,
    ⟨b.length < 8 + shape.oneTimeLength, wrongLength⟩,
    ⟨Standard.treeRow? manyTime.toNat = none, .unsupportedParameter manyTime⟩,
    ⟨manyTime ≠ shape.manyTime, .wrongAlgorithm shape.manyTime manyTime⟩,
    ⟨2 ^ shape.height ≤ (b.wordAt 0).toNat, .invalidSignatureEncoding⟩,
    ⟨b.length ≠ shape.length, wrongLength⟩]

end Shape

abbrev Mode.shape (mode : Mode) : Shape :=
  ⟨mode.typecode, mode.oneTime.typecode, mode.oneTime.signatureLength, mode.height, mode.n⟩

theorem Signature.reports_decode (mode : Mode) (b : Bytes) :
    Reports (mode.shape.signatureChecks b) Succeeds (decode mode b) := by
  refine .cons (fun short => ?_) fun long => ?_
  · have missing : b.uint32At? 4 = none := Bytes.uint32At?_eq_none_iff.2 short
    rw [decode, missing]
    cases b.uint32At? 0 <;> rfl
  have q : b.uint32At? 0 = some (b.wordAt 0) := Bytes.uint32At?_eq_wordAt (by omega)
  have oneTimeType : b.uint32At? 4 = some (b.wordAt 4) := Bytes.uint32At?_eq_wordAt (by omega)
  simp only [decode, q, oneTimeType]
  refine (mode.oneTime.reports_expectTypecode _).bind fun _ expected => ?_
  refine .cons (fun short => ?_) fun long => ?_
  · have short : b.length < 8 + mode.oneTime.signatureLength := short
    have missing : b.uint32At? (4 + mode.oneTime.signatureLength) = none :=
      Bytes.uint32At?_eq_none_iff.2 (by omega)
    rw [missing]
    rfl
  have long : ¬ b.length < 8 + mode.oneTime.signatureLength := long
  have manyTimeType : b.uint32At? (4 + mode.oneTime.signatureLength) =
      some (b.wordAt (4 + mode.oneTime.signatureLength)) := Bytes.uint32At?_eq_wordAt (by omega)
  rw [manyTimeType]
  refine (mode.reports_expectTypecode _).bind fun _ _ => ?_
  have inTree : b.wordAt 0 < mode.leaves ↔ ¬ 2 ^ mode.height ≤ (b.wordAt 0).toNat := by
    rw [UInt32.lt_iff_toNat_lt, mode.toNat_leaves, Nat.not_le]
  refine .cons (fun outside => dif_neg fun inside => inTree.1 inside outside) fun inside => ?_
  rw [dif_pos (inTree.2 inside)]
  refine .cons (fun wrong => dif_neg wrong) fun right => ?_
  have exact : b.length = mode.signatureLength := of_not_not right
  have part : ((b.drop 4).take mode.oneTime.signatureLength).length = mode.oneTime.signatureLength := by
    rw [List.length_take, List.length_drop]
    omega
  have front : Bytes.uint32At? ((b.drop 4).take mode.oneTime.signatureLength) 0 = some (b.wordAt 4) :=
    Bytes.uint32At?_take_drop oneTimeType (Nat.le_add_right 4 _)
  obtain ⟨s, read⟩ := OneTime.Signature.exists_decode front expected part
  rw [dif_pos exact, read]
  exact .nil ⟨_, rfl⟩

/-! ## Verification of byte strings -/

def publicKeyChecks (b : Bytes) : List Check :=
  let manyTime := b.wordAt 0
  let oneTime := b.wordAt 4
  let tree? := Standard.treeRow? manyTime.toNat
  let row? := Standard.oneTimeRow? oneTime.toNat
  [⟨b.length < 8, .invalidPublicKey⟩,
    ⟨tree? = none, .unsupportedParameter manyTime⟩,
    ⟨row? = none, .unsupportedParameter oneTime⟩,
    ⟨tree?.map (·.m) ≠ row?.map (·.n), .incompatibleParameters manyTime oneTime⟩,
    ⟨tree?.map (24 + ·.m) ≠ some b.length, .invalidPublicKey⟩]

def shape? (publicKey : Bytes) : Option Shape := do
  let manyTime := publicKey.wordAt 0
  let oneTime := publicKey.wordAt 4
  let tree ← Standard.treeRow? manyTime.toNat
  let row ← Standard.oneTimeRow? oneTime.toNat
  return ⟨manyTime, oneTime, 4 + row.n * (row.p + 1), tree.h, tree.m⟩

/-- What is asked of a public key, and then of a signature. -/
def verificationChecks (publicKey signature : Bytes) : List Check :=
  publicKeyChecks publicKey ++
    match shape? publicKey with
    | some shape => shape.signatureChecks signature
    | none => []

/-- The public key and the signature were read, and the signature was judged. -/
def Judged (result : Except Error Unit) : Prop :=
  result = .ok () ∨ result = .error .verificationFailed

theorem PublicKey.judged_check {mode : Mode} (key : PublicKey mode) (msg : Bytes)
    (s : Signature mode) : Judged (key.check msg s) := by
  by_cases accepted : key.check msg s = .ok ()
  · exact .inl accepted
  · exact .inr (check_of_ne_ok accepted)

theorem reports_readParameterSets (b : Bytes) :
    Reports [⟨b.length < 8, .invalidPublicKey⟩,
      ⟨Standard.treeRow? (b.wordAt 0).toNat = none, .unsupportedParameter (b.wordAt 0)⟩,
      ⟨Standard.oneTimeRow? (b.wordAt 4).toNat = none, .unsupportedParameter (b.wordAt 4)⟩]
      Succeeds (readParameterSets b) := by
  refine .cons (fun short => ?_) fun long => ?_
  · have missing : b.uint32At? 4 = none := Bytes.uint32At?_eq_none_iff.2 short
    rw [readParameterSets, missing]
    cases b.uint32At? 0 <;> rfl
  have manyTimeType : b.uint32At? 0 = some (b.wordAt 0) := Bytes.uint32At?_eq_wordAt (by omega)
  have oneTimeType : b.uint32At? 4 = some (b.wordAt 4) := Bytes.uint32At?_eq_wordAt (by omega)
  simp only [readParameterSets, manyTimeType, oneTimeType]
  refine (ParameterSet.reports_lookup _).bind fun set _ => ?_
  exact (OneTime.ParameterSet.reports_lookup _).bind fun oneTime _ => .nil ⟨_, rfl⟩

-- The parameter sets that were read are those of the typecodes at the front.
theorem header_prefix_of_read (H : Digest) {b : Bytes} {set : ParameterSet}
    {oneTime : OneTime.ParameterSet} (read : readParameterSets b = .ok (set, oneTime)) :
    (set.modeWith H oneTime).header <+: b := by
  rw [readParameterSets] at read
  split at read
  · next manyTimeType foundManyTime =>
    split at read
    · next oneTimeType foundOneTime =>
      obtain ⟨_, first, read⟩ := bind_eq_ok_iff.1 read
      obtain ⟨_, second, read⟩ := bind_eq_ok_iff.1 read
      cases read
      refine ⟨b.drop 8, ?_⟩
      change Bytes.ofUInt32 set.typecode ++ Bytes.ofUInt32 oneTime.typecode ++ b.drop 8 = b
      rw [ParameterSet.typecode_of_lookup first, OneTime.ParameterSet.typecode_of_lookup second,
        List.append_assoc, Bytes.ofUInt32_append_drop foundOneTime]
      exact Bytes.ofUInt32_append_drop foundManyTime
    · cases read
  · cases read

theorem value_verify (H : Digest) (publicKey msg signature : Bytes) :
    (verifyWith H publicKey msg signature).value = (do
      let (set, oneTime) ← readParameterSets publicKey
      if set.size = oneTime.size then
        (set.modeWith H oneTime).verifyBytes publicKey msg signature
      else
        throw (.incompatibleParameters set.typecode oneTime.typecode)) := by
  rw [verifyWith]
  cases readParameterSets publicKey with
  | error e => rfl
  | ok sets =>
    dsimp only
    split <;> next sizes => simp only [bind, Except.bind, sizes]; rfl

section

variable {mode : Mode} (registered : mode.Registered) {rest : Bytes}
include registered

theorem PublicKey.decode_of_wrong_length
    (wrong : (mode.header ++ rest).length ≠ mode.publicKeyLength) :
    decode mode (mode.header ++ rest) = .error .invalidPublicKey := by
  simp only [decode, registered.expectHeader .invalidPublicKey rest, wrong]
  rfl

theorem PublicKey.exists_decode (exact : (mode.header ++ rest).length = mode.publicKeyLength) :
    ∃ key, decode mode (mode.header ++ rest) = .ok key := by
  simp only [decode, registered.expectHeader .invalidPublicKey rest, exact]
  exact ⟨_, rfl⟩

end

section

variable (H : Digest) (set : ParameterSet) (oneTime : OneTime.ParameterSet) (rest : Bytes)

theorem wordAt_header : ((set.modeWith H oneTime).header ++ rest).wordAt 0 = set.typecode ∧
    ((set.modeWith H oneTime).header ++ rest).wordAt 4 = oneTime.typecode := by
  have manyTimeType : ((set.modeWith H oneTime).header ++ rest).uint32At? 0 = some set.typecode :=
    Bytes.uint32At?_of_layout [] _ rfl rfl
  have oneTimeType : ((set.modeWith H oneTime).header ++ rest).uint32At? 4 = some oneTime.typecode :=
    Bytes.uint32At?_of_layout (Bytes.ofUInt32 set.typecode) _ rfl rfl
  rw [Bytes.wordAt, Bytes.wordAt, manyTimeType, oneTimeType]
  exact ⟨rfl, rfl⟩

variable {H set oneTime}

theorem shape?_header (sizes : set.size = oneTime.size) :
    shape? ((set.modeWith H oneTime).header ++ rest) = some (set.modeWith H oneTime).shape := by
  obtain ⟨manyTimeType, oneTimeType⟩ := wordAt_header H set oneTime rest
  simp only [shape?, manyTimeType, oneTimeType, set.treeRow?_typecode, oneTime.oneTimeRow?_typecode]
  change some (Shape.mk _ _ _ _ set.size.octets) = some (Shape.mk _ _ _ _ oneTime.size.octets)
  rw [sizes]
  rfl

end

theorem reports_verify (H : Digest) (publicKey msg signature : Bytes) :
    Reports (verificationChecks publicKey signature) Judged
      (verifyWith H publicKey msg signature).value := by
  rw [value_verify]
  change Reports ([_, _, _] ++ ([_, _] ++ _)) Judged _
  refine (reports_readParameterSets publicKey).bind fun ⟨set, oneTime⟩ read => ?_
  obtain ⟨rest, rfl⟩ := header_prefix_of_read H read
  obtain ⟨manyTimeType, oneTimeType⟩ := wordAt_header H set oneTime rest
  simp only [manyTimeType, oneTimeType, set.treeRow?_typecode, oneTime.oneTimeRow?_typecode]
  refine .cons (fun different => ?_) fun same => ?_
  · have sizes : set.size ≠ oneTime.size := fun same =>
      different (congrArg some (congrArg HashSize.octets same))
    exact if_neg sizes
  have sizes : set.size = oneTime.size :=
    HashSize.octets_injective (Option.some.inj (of_not_not same))
  have length : 24 + set.row.m = (set.modeWith H oneTime).publicKeyLength :=
    congrArg (24 + HashSize.octets ·) sizes
  rw [if_pos sizes, Mode.verifyBytes]
  refine .cons (fun wrong => ?_) fun right => ?_
  · have wrong : _ ≠ (set.modeWith H oneTime).publicKeyLength := fun exact =>
      wrong (congrArg some (length.trans exact.symm))
    rw [PublicKey.decode_of_wrong_length (set.registered_modeWith H oneTime) wrong]
    rfl
  have exact := length.symm.trans (Option.some.inj (of_not_not right))
  obtain ⟨key, keyRead⟩ := PublicKey.exists_decode (set.registered_modeWith H oneTime) exact.symm
  have judged := (Signature.reports_decode _ signature).bind fun s _ => .nil (key.judged_check msg s)
  rw [List.append_nil] at judged
  rw [keyRead, shape?_header rest sizes]
  exact judged

/-- The verifier of byte strings reports the first check that fails, those of the public
key before those of the signature; if none fails, it judges the signature. Reading a
signature in any mode reports the same checks of the signature. -/
theorem first_failure_reported :
    (∀ H publicKey msg signature, Reports (verificationChecks publicKey signature) Judged
      (verifyWith H publicKey msg signature).value) ∧
    ∀ (mode : Mode) (b : Bytes), Reports (mode.shape.signatureChecks b) Succeeds (Signature.decode mode b) :=
  ⟨reports_verify, Signature.reports_decode⟩

-- A truncated signature of another one-time set: the set is what is reported.
example : refusal (verificationChecks
    (Bytes.ofUInt32 5 ++ Bytes.ofUInt32 4 ++ List.replicate 48 0) (Bytes.ofUInt32 99 ++ Bytes.ofUInt32 3)) =
      some (.wrongAlgorithm 4 3) := by decide

end ManyTime

end HashSig
