import HashSig.Proofs.CallLog

/-! What a seed is good for.

Two keys with the same identifier and counter but different seeds look the same
(`Key.Alike.looksLike`): the counter, the text and the bytes before the seed are equal.
Each operation answers both alike, logs the same for both, and leaves two keys that
again differ only in their seeds (`Key.Alike.moment`); it follows that no run tells them
apart. What may differ is the seed where a key is written, the root in a public key, and
in a signature the randomizer made from the seed, the chains and the path. All of these
but the seed are hashes.
-/

set_option autoImplicit false

namespace HashSig

/-! ## Strings with the same beginning -/

theorem Bytes.take_drop_congr {b c : Bytes} {k start n : Nat} (front : b.take k = c.take k)
    (fits : start + n ≤ k) : (b.drop start).take n = (c.drop start).take n := by
  have inside (b : Bytes) : ((b.take k).drop start).take n = (b.drop start).take n := by
    rw [List.drop_take, List.take_take, Nat.min_eq_left (by omega)]
  rw [← inside b, front, inside c]

theorem Bytes.uint32At?_congr {b c : Bytes} {k start : Nat} (front : b.take k = c.take k)
    (fits : start + 4 ≤ k) : b.uint32At? start = c.uint32At? start := by
  have inside (b : Bytes) : b.uint32At? start = Bytes.uint32At? ((b.drop start).take 4) 0 := by
    rw [uint32At?, uint32At?, List.drop_zero]
    rcases b.drop start with _ | ⟨x, _ | ⟨y, _ | ⟨z, _ | ⟨w, rest⟩⟩⟩⟩ <;> rfl
  rw [inside b, take_drop_congr front fits, inside c]

namespace ManyTime

variable {mode : Mode}

/-! ## Keys that differ in their seeds -/

/-- The lasting parts differ at most in their seeds. -/
structure PrivateKey.Alike (first second : PrivateKey mode) : Prop where
  q : first.q = second.q
  id : first.id = second.id

theorem PrivateKey.Alike.take_encode {first second : PrivateKey mode} (alike : first.Alike second) :
    first.encode.take 28 = second.encode.take 28 := by
  have front (key : PrivateKey mode) :
      key.encode.take 28 = mode.header ++ (Bytes.ofUInt32 key.q ++ key.id.bytes) := by
    have whole : key.encode = (mode.header ++ (Bytes.ofUInt32 key.q ++ key.id.bytes)) ++ key.seed.bytes := by
      simp only [encode, List.append_assoc]
    rw [whole]
    apply List.take_left'
    rw [List.length_append, List.length_append, Mode.length_header, Bytes.length_ofUInt32, key.id.length_eq]
  rw [front, front, alike.q, alike.id]

/-- The keys have the same form and both a tree or both none. -/
inductive Key.Alike : Key mode → Key mode → Prop where
  | signing {first second : SigningKey mode} (lasting : first.toPrivateKey.Alike second.toPrivateKey)
      (trees : first.tree.isSome = second.tree.isSome) : Alike (.signing first) (.signing second)
  | shared {first second : SharedKey mode} (lasting : first.toPrivateKey.Alike second.toPrivateKey) :
      Alike (.shared first) (.shared second)

def Key.shown : Key mode → String
  | .signing key => key.display
  | .shared key => key.display

/-- Nothing that can be seen of the keys themselves tells them apart. -/
structure Key.LooksLike (first second : Key mode) : Prop where
  q : first.privateKey.q = second.privateKey.q
  remaining : first.privateKey.remaining = second.privateKey.remaining
  exhausted : first.privateKey.isExhausted = second.privateKey.isExhausted
  shown : first.shown = second.shown
  front : first.privateKey.encode.take 28 = second.privateKey.encode.take 28
  length : first.privateKey.encode.length = second.privateKey.encode.length

namespace Key.Alike

variable {first second : Key mode}

theorem lasting (alike : first.Alike second) : first.privateKey.Alike second.privateKey := by
  cases alike with
  | signing lasting | shared lasting => exact lasting

theorem tree? (alike : first.Alike second) : first.tree?.isSome = second.tree?.isSome := by
  cases alike with
  | signing _ trees => exact trees
  | shared => rfl

theorem looksLike (alike : first.Alike second) : first.LooksLike second where
  q := alike.lasting.q
  remaining := by rw [PrivateKey.remaining, PrivateKey.remaining, alike.lasting.q]
  exhausted := by rw [PrivateKey.isExhausted, PrivateKey.isExhausted, alike.lasting.q]
  shown := by
    cases alike with
    | signing lasting =>
      simp only [shown, SigningKey.display, PrivateKey.fields, lasting.q, lasting.id]
    | shared lasting =>
      simp only [shown, SharedKey.display, PrivateKey.fields, lasting.q, lasting.id]
  front := alike.lasting.take_encode
  length := by rw [PrivateKey.length_encode, PrivateKey.length_encode]

end Key.Alike

/-! ## Answers -/

/-- The signatures have the same leaf and the randomizer that was `supplied`, if one was.
Their bytes are equal outside the fields for hashes. -/
structure Signature.Alike (supplied : Option Bytes) (s t : Signature mode) : Prop where
  leaf : s.leaf.index = t.leaf.index
  randomizer : ∀ c, supplied = some c → s.oneTime.c.bytes = c ∧ t.oneTime.c.bytes = c
  length : s.encode.length = t.encode.length
  front : s.encode.take 8 = t.encode.take 8
  typecode : (s.encode.drop (4 + mode.oneTime.signatureLength)).take 4 =
    (t.encode.drop (4 + mode.oneTime.signatureLength)).take 4

theorem Signature.Alike.of_leaf {supplied : Option Bytes} {s t : Signature mode} (leaf : s.leaf = t.leaf)
    (randomizer : ∀ c, supplied = some c → s.oneTime.c.bytes = c ∧ t.oneTime.c.bytes = c) :
    s.Alike supplied t where
  leaf := congrArg Leaf.index leaf
  randomizer := randomizer
  length := by rw [length_encode, length_encode]
  front := by
    have front (s : Signature mode) : s.encode.take 8 =
        Bytes.ofUInt32 s.leaf.index ++ Bytes.ofUInt32 mode.oneTime.typecode := by
      simp only [encode, OneTime.Signature.encode, List.append_assoc]
      rw [← List.append_assoc]
      exact List.take_left' rfl
    rw [front, front, leaf]
  typecode := by
    have typecode (s : Signature mode) :
        (s.encode.drop (4 + mode.oneTime.signatureLength)).take 4 = Bytes.ofUInt32 mode.typecode := by
      have before : (Bytes.ofUInt32 s.leaf.index ++ s.oneTime.encode).length =
          4 + mode.oneTime.signatureLength := by
        rw [List.length_append, Bytes.length_ofUInt32, OneTime.Signature.length_encode]
      rw [encode, ← List.append_assoc, List.drop_left' before]
      exact List.take_left' rfl
    rw [typecode, typecode]

/-- The answers are the same, or of the same kind and different only where hashes and
seeds stand. -/
inductive Answer.Alike (supplied : Option Bytes) : Answer mode → Answer mode → Prop where
  | same {answer : Answer mode} (silent : answer.signature? = none) : Alike supplied answer answer
  | signature {s t : Signature mode} (alike : s.Alike supplied t) : Alike supplied (.signature s) (.signature t)
  | publicKey {first second : PublicKey mode} (length : first.encode.length = second.encode.length)
      (front : first.encode.take 24 = second.encode.take 24) :
      Alike supplied (.publicKey first) (.publicKey second)
  | bytes {first second : Bytes} (length : first.length = second.length)
      (front : first.take 28 = second.take 28) : Alike supplied (.bytes first) (.bytes second)

/-- The calls cannot be told apart, except by hashes in their answers and by a seed that
is written. -/
structure Moment.Alike (first second : Moment mode) : Prop where
  op : first.op = second.op
  answer : first.answer.Alike (first.op.supplied? mode.n) second.answer
  events : first.events = second.events
  after : first.after.LooksLike second.after

/-! ## One call -/

section

variable {supplied : Option Bytes}

theorem Answer.Alike.ofSign {s t : Except Error (Signature mode)} (alike : Agree (Signature.Alike supplied) s t) :
    (Answer.ofSign s).Alike supplied (.ofSign t) := by
  cases alike with
  | ok alike => exact .signature alike
  | error => exact .same rfl

theorem Answer.Alike.ofGeneric {s t : Except Error (Signature mode)}
    (alike : Agree (Signature.Alike supplied) s t) :
    (Answer.ofGeneric (withhold s)).Alike supplied (.ofGeneric (withhold t)) := by
  cases alike with
  | ok alike => exact .signature alike
  | error => exact .same rfl

theorem PublicKey.alike {first second : PublicKey mode} (id : first.id = second.id) :
    (Answer.publicKey first).Alike supplied (.publicKey second) := by
  have front (key : PublicKey mode) : key.encode.take 24 = mode.header ++ key.id.bytes := by
    rw [encode, ← List.append_assoc]
    apply List.take_left'
    rw [List.length_append, Mode.length_header, key.id.length_eq]
  refine .publicKey ?_ ?_
  · rw [length_encode, length_encode]
  · rw [front, front, id]

end

-- A leaf and a supplied randomizer stand in the signature, whatever the key and the tree.
theorem PrivateKey.alike_signLeaf (first second : PrivateKey mode) (tree other : Tree mode)
    {leaf next : Leaf mode} (leaves : leaf = next) (msg : Bytes) {randomizer : Option Bytes}
    {c : Option (Octets mode.n)} (read : mode.readRandomizer randomizer = .ok c) :
    (first.signLeaf tree leaf msg c).Alike randomizer (second.signLeaf other next msg c) := by
  subst leaves
  refine .of_leaf rfl fun bytes supplied => ?_
  rw [Mode.readRandomizer_eq_ok_iff.1 read] at supplied
  obtain ⟨c, rfl, rfl⟩ := Option.map_eq_some_iff.1 supplied
  exact ⟨rfl, rfl⟩

theorem SigningKey.toPrivateKey_withTree (key : SigningKey mode) :
    key.withTree.value.2.toPrivateKey = key.toPrivateKey := by
  obtain ⟨lasting, _ | tree⟩ := key <;> rfl

theorem SigningKey.toPrivateKey_share (key : SigningKey mode) :
    key.share.value.toPrivateKey = key.toPrivateKey := by
  obtain ⟨lasting, _ | tree⟩ := key <;> rfl

theorem SigningKey.alike_sign {first second : SigningKey mode}
    (lasting : first.toPrivateKey.Alike second.toPrivateKey) (trees : first.tree.isSome = second.tree.isSome)
    (msg : Bytes) (randomizer : Option Bytes) :
    Agree (Signature.Alike randomizer) (first.sign msg randomizer).value.1 (second.sign msg randomizer).value.1 ∧
    (Key.signing (first.sign msg randomizer).value.2).Alike (.signing (second.sign msg randomizer).value.2) := by
  cases read : mode.readRandomizer randomizer with
  | error e =>
    rw [value_sign_of_refused read, value_sign_of_refused read]
    exact ⟨.error, .signing lasting trees⟩
  | ok c =>
    by_cases unused : first.q < mode.leaves
    · have other : second.q < mode.leaves := lasting.q ▸ unused
      simp only [sign, read, reserve, dif_pos unused, dif_pos other, Logged.value_bind, Logged.value_pure]
      refine ⟨.ok (PrivateKey.alike_signLeaf _ _ _ _ (Leaf.ext lasting.q) msg read), .signing ?_ ?_⟩
      · rw [toPrivateKey_withTree, toPrivateKey_withTree]
        exact ⟨congrArg (· + 1) lasting.q, lasting.id⟩
      · rw [tree_withTree, tree_withTree]
    · have other : ¬ second.q < mode.leaves := lasting.q ▸ unused
      rw [value_sign_of_exhausted read unused, value_sign_of_exhausted read other]
      exact ⟨.error, .signing lasting trees⟩

theorem SharedKey.alike_sign {first second : SharedKey mode}
    (lasting : first.toPrivateKey.Alike second.toPrivateKey) (msg : Bytes) (randomizer : Option Bytes) :
    Agree (Signature.Alike randomizer) (first.sign msg randomizer).value.1 (second.sign msg randomizer).value.1 ∧
    (Key.shared (first.sign msg randomizer).value.2).Alike (.shared (second.sign msg randomizer).value.2) := by
  cases read : mode.readRandomizer randomizer with
  | error e =>
    rw [value_sign_of_refused read, value_sign_of_refused read]
    exact ⟨.error, .shared lasting⟩
  | ok c =>
    by_cases unused : first.q < mode.leaves
    · have other : second.q < mode.leaves := lasting.q ▸ unused
      simp only [sign, read, reserve, dif_pos unused, dif_pos other, Logged.value_bind, Logged.value_pure]
      refine ⟨.ok (PrivateKey.alike_signLeaf _ _ _ _ (Leaf.ext lasting.q) msg read), .shared ?_⟩
      exact ⟨congrArg (· + 1) lasting.q, lasting.id⟩
    · have other : ¬ second.q < mode.leaves := lasting.q ▸ unused
      rw [value_sign_of_exhausted read unused, value_sign_of_exhausted read other]
      exact ⟨.error, .shared lasting⟩

namespace Key

variable {first second : Key mode}

theorem Alike.asked (alike : first.Alike second) (op : Operation) : first.asked op = second.asked op := by
  cases alike <;> cases op <;> rfl

theorem Alike.performSigning {first second : SigningKey mode}
    (alike : (Key.signing first).Alike (.signing second)) (op : Operation) :
    (performSigning first op).value.1.Alike (op.supplied? mode.n) (performSigning second op).value.1 ∧
      (performSigning first op).value.2.Alike (performSigning second op).value.2 := by
  obtain ⟨lasting, trees⟩ := alike
  have built : first.withTree.value.2.toPrivateKey.Alike second.withTree.value.2.toPrivateKey := by
    rw [SigningKey.toPrivateKey_withTree, SigningKey.toPrivateKey_withTree]
    exact lasting
  have both : first.withTree.value.2.tree.isSome = second.withTree.value.2.tree.isSome := by
    rw [SigningKey.tree_withTree, SigningKey.tree_withTree]
  have looks := (Alike.signing lasting trees).looksLike
  cases op with
  | sign msg randomizer =>
    obtain ⟨signed, left⟩ := SigningKey.alike_sign lasting trees msg randomizer
    exact ⟨.ofSign signed, left⟩
  | signGeneric msg =>
    obtain ⟨signed, left⟩ := SigningKey.alike_sign lasting trees msg none
    exact ⟨.ofGeneric signed, left⟩
  | signRandomized source msg =>
    simp only [Key.performSigning, SigningKey.signRandomized, Operation.supplied?]
    cases source mode.n with
    | none => exact ⟨.same rfl, .signing lasting trees⟩
    | some c =>
      obtain ⟨signed, left⟩ := SigningKey.alike_sign lasting trees msg (some c.bytes)
      exact ⟨.ofGeneric signed, left⟩
  | precompute => exact ⟨.same rfl, .signing built both⟩
  | publicKey => exact ⟨PublicKey.alike built.id, .signing built both⟩
  | save => exact ⟨.bytes looks.length looks.front, .signing lasting trees⟩
  | display =>
    have shown : first.display = second.display := looks.shown
    refine ⟨?_, .signing lasting trees⟩
    simp only [Key.performSigning, Logged.value_pure, shown]
    exact .same rfl
  | share =>
    refine ⟨.same rfl, .shared ?_⟩
    rw [SigningKey.toPrivateKey_share, SigningKey.toPrivateKey_share]
    exact lasting
  | unshare => exact ⟨.same rfl, .signing lasting trees⟩

theorem Alike.performShared {first second : SharedKey mode}
    (alike : (Key.shared first).Alike (.shared second)) (op : Operation) :
    (performShared first op).value.1.Alike (op.supplied? mode.n) (performShared second op).value.1 ∧
      (performShared first op).value.2.Alike (performShared second op).value.2 := by
  have lasting : first.toPrivateKey.Alike second.toPrivateKey := alike.lasting
  cases op with
  | sign msg randomizer =>
    obtain ⟨signed, left⟩ := SharedKey.alike_sign lasting msg randomizer
    exact ⟨.ofSign signed, left⟩
  | signGeneric msg =>
    obtain ⟨signed, left⟩ := SharedKey.alike_sign lasting msg none
    exact ⟨.ofGeneric signed, left⟩
  | publicKey => exact ⟨PublicKey.alike lasting.id, .shared lasting⟩
  | display =>
    have shown : first.display = second.display := (Alike.shared lasting).looksLike.shown
    refine ⟨?_, .shared lasting⟩
    simp only [Key.performShared, Logged.value_pure, shown]
    exact .same rfl
  | unshare => exact ⟨.same rfl, .signing lasting rfl⟩
  | signRandomized | precompute | save | share => exact ⟨.same rfl, .shared lasting⟩

theorem Alike.perform (alike : first.Alike second) (op : Operation) :
    (first.perform op).value.1.Alike (op.supplied? mode.n) (second.perform op).value.1 ∧
      (first.perform op).value.2.Alike (second.perform op).value.2 := by
  cases alike with
  | signing lasting trees => exact Alike.performSigning (.signing lasting trees) op
  | shared lasting => exact Alike.performShared (.shared lasting) op

end Key

theorem Answer.Alike.leaf_eq {supplied : Option Bytes} {first second : Answer mode}
    (alike : first.Alike supplied second) :
    first.signature?.map (·.leaf.index) = second.signature?.map (·.leaf.index) := by
  cases alike with
  | same | publicKey | bytes => rfl
  | signature alike => exact congrArg some alike.leaf

-- What a call has to log is known from parts of its answer in which like answers agree.
theorem Answer.Alike.log_eq {first second : Moment mode} {supplied : Option Bytes}
    (alike : first.answer.Alike supplied second.answer) (op : first.op = second.op)
    (asked : first.before.asked first.op = second.before.asked second.op) (present : Bool) :
    first.log present = second.log present := by
  have last (m : Moment mode) : m.takesLastLeaf =
      (m.answer.signature?.map (·.leaf.index)).any fun index => index + 1 = mode.leaves := by
    rw [Moment.takesLastLeaf, Option.any_map]
  have signed : first.answer.signature?.isSome = second.answer.signature?.isSome := by
    have leaves := congrArg Option.isSome alike.leaf_eq
    rwa [Option.isSome_map, Option.isSome_map] at leaves
  have needs : first.needsTree = second.needsTree := by
    rw [Moment.needsTree, Moment.needsTree, op, signed]
  have refused : first.refusedAsExhausted = second.refusedAsExhausted := by
    rw [Moment.refusedAsExhausted, Moment.refusedAsExhausted, asked, ← Option.not_isSome,
      ← Option.not_isSome, signed]
  rw [Moment.log, Moment.log, last, last, alike.leaf_eq, refused, needs]

theorem Key.Alike.moment {first second : Key mode} (alike : first.Alike second) (op : Operation) :
    (first.moment op).Alike (second.moment op) ∧ (first.moment op).after.Alike (second.moment op).after := by
  obtain ⟨answer, after⟩ := alike.perform op
  have answer : (first.moment op).answer.Alike (op.supplied? mode.n) (second.moment op).answer := answer
  refine ⟨⟨rfl, answer, ?_, after.looksLike⟩, after⟩
  rw [events_moment, events_moment, alike.tree?]
  exact answer.log_eq rfl (alike.asked op) _

theorem Key.Alike.moments {first second : Key mode} (alike : first.Alike second) (ops : List Operation) :
    List.Forall₂ Moment.Alike (first.moments ops) (second.moments ops) := by
  induction ops generalizing first second with
  | nil => exact .nil
  | cons op ops ih =>
    obtain ⟨here, after⟩ := alike.moment op
    exact .cons here (ih after)

/-! ## Keys at their beginning -/

/-- The keys begin in the same way, and with seeds of the same length. -/
inductive Origin.Twins : Origin → Origin → Prop where
  | seed {id : Identifier} {first second : Bytes} (length : first.length = second.length) :
      Twins (.seed id first) (.seed id second)
  | random {first second : ByteStream} (id : first.take 16 = second.take 16) :
      Twins (.random first) (.random second)
  | bytes {first second : Bytes} {withTree : Bool} (length : first.length = second.length)
      (front : first.take 28 = second.take 28) : Twins (.bytes first withTree) (.bytes second withTree)

theorem PrivateKey.Alike.twins {first second : PrivateKey mode} (alike : first.Alike second) (withTree : Bool) :
    Origin.Twins (.bytes first.encode withTree) (.bytes second.encode withTree) :=
  .bytes (by rw [length_encode, length_encode]) alike.take_encode

theorem PrivateKey.agree_decode (mode : Mode) {b c : Bytes} (length : b.length = c.length)
    (front : b.take 28 = c.take 28) : Agree Alike (decode mode b) (decode mode c) := by
  have header : mode.expectHeader .invalidPrivateKeyEncoding b =
      mode.expectHeader .invalidPrivateKeyEncoding c := by
    simp only [Mode.expectHeader, Bytes.uint32At?_congr front (show 0 + 4 ≤ 28 by decide),
      Bytes.uint32At?_congr front (show 4 + 4 ≤ 28 by decide)]
  rw [decode, decode, header]
  cases mode.expectHeader .invalidPrivateKeyEncoding c with
  | error e => exact .error
  | ok =>
    by_cases exact : b.length = mode.privateKeyLength
    · have other : c.length = mode.privateKeyLength := length.symm.trans exact
      have q (fits : 8 + 4 ≤ b.length) (same : 8 + 4 ≤ c.length) : b.uint32At 8 fits = c.uint32At 8 same := by
        have words := Bytes.uint32At?_congr front (show 8 + 4 ≤ 28 by decide)
        rw [Bytes.uint32At?_of_le fits, Bytes.uint32At?_of_le same] at words
        exact Option.some.inj words
      have id (fits : 12 + 16 ≤ b.length) (same : 12 + 16 ≤ c.length) :
          Octets.slice b 12 16 fits = Octets.slice c 12 16 same :=
        Octets.ext (Bytes.take_drop_congr front (show 12 + 16 ≤ 28 by decide))
      have room : 28 ≤ c.length := other ▸ Nat.le_add_right 28 _
      have q := q (by omega) (by omega)
      have id := id (by omega) (by omega)
      have bound : b.uint32At 8 (by omega) ≤ mode.leaves ↔ c.uint32At 8 (by omega) ≤ mode.leaves := by rw [q]
      rw [dif_pos exact, dif_pos other]
      dsimp only [bind, Except.bind]
      by_cases inRange : c.uint32At 8 (by omega) ≤ mode.leaves
      · rw [if_pos (bound.2 inRange), if_pos inRange]
        exact .ok ⟨q, id⟩
      · rw [if_neg (mt bound.1 inRange), if_neg inRange]
        exact .error
    · have other : c.length ≠ mode.privateKeyLength := fun same => exact (length.trans same)
      simp only [dif_neg exact, dif_neg other]
      exact .error

theorem SigningKey.events_ofPrivateKey (key : PrivateKey mode) :
    (ofPrivateKey key).events = [.buildingTree mode.height mode.typecode] := rfl

theorem PrivateKey.Alike.ofPrivateKey {first second : PrivateKey mode} (alike : first.Alike second) :
    (Key.signing (SigningKey.ofPrivateKey first).value).Alike (.signing (SigningKey.ofPrivateKey second).value) :=
  .signing alike rfl

theorem Origin.agree_bytes {b c : Bytes} (length : b.length = c.length) (front : b.take 28 = c.take 28)
    (withTree : Bool) :
    ((Origin.bytes b withTree).start mode).events = ((Origin.bytes c withTree).start mode).events ∧
      Agree (fun first second => (Key.signing first).Alike (.signing second))
        ((Origin.bytes b withTree).start mode).value ((Origin.bytes c withTree).start mode).value := by
  have agree := PrivateKey.agree_decode mode length front
  cases withTree <;> simp only [Origin.start, SigningKey.load, SigningKey.loadWithoutTree]
  all_goals
    generalize PrivateKey.decode mode b = read at *
    generalize PrivateKey.decode mode c = other at *
  · cases agree with
    | error => exact ⟨rfl, .error⟩
    | ok alike =>
      simp only [Logged.events_bind, Logged.value_bind, alike.q]
      exact ⟨rfl, .ok (.signing alike rfl)⟩
  · cases agree with
    | error => exact ⟨rfl, .error⟩
    | ok alike =>
      simp only [Logged.events_map, Logged.value_map, Logged.events_bind, Logged.value_bind, alike.q,
        SigningKey.events_ofPrivateKey]
      exact ⟨trivial, .ok alike.ofPrivateKey⟩

theorem Origin.Twins.start {origin other : Origin} (twins : origin.Twins other) (mode : Mode) :
    (origin.start mode).events = (other.start mode).events ∧
      Agree (fun first second => (Key.signing first).Alike (.signing second))
        (origin.start mode).value (other.start mode).value := by
  cases twins with
  | @seed id first second length =>
    simp only [Origin.start, SigningKey.ofSeed, PrivateKey.ofSeed, Octets.ofBytes?]
    by_cases exact : first.length = mode.n
    · have other : second.length = mode.n := length.symm.trans exact
      rw [dif_pos exact, dif_pos other]
      simp only [Logged.events_map, Logged.value_map, SigningKey.events_ofPrivateKey]
      exact ⟨trivial, .ok (PrivateKey.Alike.ofPrivateKey ⟨rfl, rfl⟩)⟩
    · have other : second.length ≠ mode.n := fun same => exact (length.trans same)
      rw [dif_neg exact, dif_neg other, length]
      exact ⟨rfl, .error⟩
  | random id =>
    simp only [Origin.start, SigningKey.generate, Logged.events_map, Logged.value_map, Logged.events_bind,
      Logged.value_bind, SigningKey.events_ofPrivateKey]
    exact ⟨trivial, .ok (PrivateKey.Alike.ofPrivateKey ⟨rfl, id⟩)⟩
  | bytes length front => exact Origin.agree_bytes length front _

/-! ## Main result -/

/-- Two keys that begin in the same way, with the same identifier and counter and with
any two seeds, begin with the same events and both fail with the same error or neither.
Neither the keys then nor any run of operations on them, call by call, tells them apart. -/
theorem seed_unobservable {origin other : Origin} (twins : origin.Twins other) (mode : Mode) :
    (origin.start mode).events = (other.start mode).events ∧
      Agree (fun first second => (Key.signing first).LooksLike (.signing second) ∧
          ∀ ops, List.Forall₂ Moment.Alike ((Key.signing first).moments ops) ((Key.signing second).moments ops))
        (origin.start mode).value (other.start mode).value := by
  obtain ⟨events, started⟩ := twins.start mode
  exact ⟨events, started.imp fun alike => ⟨alike.looksLike, alike.moments⟩⟩

theorem seed_unobservable_oneLeafLeft :
    let first : SigningKey _ := ⟨oneLeafLeft, none⟩
    let second : SigningKey _ := ⟨{ oneLeafLeft with seed := ⟨List.replicate 24 1, rfl⟩ }, none⟩
    first.seed ≠ second.seed ∧
      ((Origin.bytes first.encode false).start _).value = .ok first ∧
      ((Origin.bytes second.encode false).start _).value = .ok second ∧
      ∀ ops, List.Forall₂ Moment.Alike ((Key.signing first).moments ops) ((Key.signing second).moments ops) := by
  intro first second
  have registered := ParameterSet.registered_modeWith ⟨.n24, .h5⟩ Sha256.digest ⟨.n24, .w8⟩
  have firstStarted := Origin.start_encode registered (show first.q ≤ _ by decide) false
  have secondStarted := Origin.start_encode registered (show second.q ≤ _ by decide) false
  have lasting : first.toPrivateKey.Alike second.toPrivateKey := ⟨rfl, rfl⟩
  obtain ⟨-, agree⟩ := seed_unobservable (lasting.twins false) _
  rw [firstStarted, secondStarted] at agree
  cases agree with
  | ok alike => exact ⟨by decide, firstStarted, secondStarted, alike.2⟩

end ManyTime

end HashSig
