import HashSig.Proofs.LeafUse
import HashSig.Proofs.Linearization

/-! The tree is only a cache.

A key that had no tree and made what it needs anew for each question would answer in
the same way (`PrivateKey.reply`). It makes no difference whether a key was loaded
with its tree, when the tree is built, and how often the key changes its form or is
written and read again (`Key.Sound.record`). So two keys that begin with the same
counter, identifier and seed and are asked the same give the same answers, and no
answer shows what was asked before.
-/

set_option autoImplicit false

namespace HashSig.ManyTime

variable {mode : Mode}

/-! ## Keys without a cache -/

/-- The operation asks for something that a key has in every form. The text of a key
is not of this kind, since it names the form. -/
def Operation.asks : Operation → Bool
  | .sign _ _ | .signGeneric _ | .signRandomized _ _ | .publicKey | .save => true
  | .precompute | .display | .share | .unshare => false

structure Exchange (mode : Mode) where
  op : Operation
  answer : Answer mode
  after : PrivateKey mode

namespace PrivateKey

/-- The answer to a question if the tree is built anew for it, and the key afterwards. -/
def reply (key : PrivateKey mode) : Operation → Answer mode × PrivateKey mode
  | .sign msg randomizer =>
    let (signed, after) := key.serve ⟨msg, randomizer⟩
    (.ofSign signed, after)
  | .signGeneric msg =>
    let (signed, after) := key.serve ⟨msg, none⟩
    (.ofGeneric (withhold signed), after)
  | .signRandomized source msg =>
    match source mode.n with
    | none => (.refused .withheld, key)
    | some c =>
      let (signed, after) := key.serve ⟨msg, some c.bytes⟩
      (.ofGeneric (withhold signed), after)
  | .publicKey => (.publicKey key.publicHalf, key)
  | .save => (.bytes key.encode, key)
  | .precompute | .display | .share | .unshare => (.unavailable, key)

def replies (key : PrivateKey mode) : List Operation → List (Exchange mode) × PrivateKey mode
  | [] => ([], key)
  | op :: ops =>
    let rest := (key.reply op).2.replies ops
    (⟨op, (key.reply op).1, (key.reply op).2⟩ :: rest.1, rest.2)

theorem replies_append (key : PrivateKey mode) (ops more : List Operation) :
    key.replies (ops ++ more) = ((key.replies ops).1 ++ ((key.replies ops).2.replies more).1,
      ((key.replies ops).2.replies more).2) := by
  induction ops generalizing key with
  | nil => rfl
  | cons op ops ih => rw [List.cons_append, replies, ih]; rfl

end PrivateKey

/-! ## Keys with one -/

inductive Use where
  | operate (op : Operation)
  /-- Write the key and go on with what is read from the bytes, with its tree or
  without. -/
  | renew (withTree : Bool)

namespace Key

def offers : Key mode → Operation → Bool
  | .signing _, .unshare => false
  | .signing _, _ => true
  | .shared _, .signRandomized _ _ | .shared _, .precompute | .shared _, .save
  | .shared _, .share => false
  | .shared _, _ => true

def tree? : Key mode → Option (Tree mode)
  | .signing key => key.tree
  | .shared key => some key.tree

/-- Only a signing key can be written. -/
def renew (withTree : Bool) : Key mode → Logged (Answer mode × Key mode)
  | .shared key => pure (.unavailable, .shared key)
  | .signing key => do
    match ← (Origin.bytes key.encode withTree).start mode with
    | .ok read => return (.done, .signing read)
    | .error e => return (.failed e, .signing key)

def use (key : Key mode) : Use → Logged (List (Exchange mode) × Key mode)
  | .operate op => do
    let (answer, after) ← key.perform op
    return (if op.asks && key.offers op then [⟨op, answer, after.privateKey⟩] else [], after)
  | .renew withTree => do
    let (_, after) ← key.renew withTree
    return ([], after)

def record : Key mode → List Use → Logged (List (Exchange mode) × Key mode)
  | key, [] => pure ([], key)
  | key, use :: uses => do
    let (exchanges, key) ← key.use use
    let (others, key) ← record key uses
    return (exchanges ++ others, key)

variable {key after : Key mode}

theorem Sound.eq_merkleTree (sound : key.Sound) {tree : Tree mode} (present : key.tree? = some tree) :
    tree = key.privateKey.merkleTree := by
  cases key with
  | signing key => exact SigningKey.Sound.cached sound tree present
  | shared key => exact (Option.some.inj present).symm.trans (SharedKey.Sound.cached sound)

/-! ### One use -/

theorem perform_eq_unavailable_iff (op : Operation) :
    (key.perform op).value.1 = .unavailable ↔ key.offers op = false := by
  have signed (s : Except Error (Signature mode)) : Answer.ofSign s ≠ .unavailable := by
    cases s <;> nofun
  have generic (s : Except SignatureError (Signature mode)) : Answer.ofGeneric s ≠ .unavailable := by
    cases s <;> nofun
  cases op with
  | sign => cases key <;> exact iff_of_false (signed _) nofun
  | signGeneric => cases key <;> exact iff_of_false (generic _) nofun
  | signRandomized =>
    cases key with
    | signing key => exact iff_of_false (generic _) nofun
    | shared key => exact iff_of_true rfl rfl
  | publicKey | display => cases key <;> exact iff_of_false nofun nofun
  | precompute | save | share =>
    cases key with
    | signing key => exact iff_of_false nofun nofun
    | shared key => exact iff_of_true rfl rfl
  | unshare =>
    cases key with
    | signing key => exact iff_of_true rfl rfl
    | shared key => exact iff_of_false nofun nofun

theorem Requests.asked {op : Operation} {msg : Bytes} {c : Option (Octets mode.n)}
    (request : key.Requests op msg c) : op.asks = true ∧ key.offers op = true := by
  cases request with
  | sign | signGeneric => cases key <;> exact ⟨rfl, rfl⟩
  | signRandomized => exact ⟨rfl, rfl⟩

theorem Requests.unique {op : Operation} {msg other : Bytes} {c d : Option (Octets mode.n)}
    (request : key.Requests op msg c) (again : key.Requests op other d) : msg = other ∧ c = d := by
  have message := request.message?.symm.trans again.message?
  have randomizer := request.supplied?.symm.trans again.supplied?
  exact ⟨Option.some.inj message, (Option.map_inj_right fun _ _ => Octets.ext).1 randomizer⟩

theorem Outcome.eq_signature_iff {op : Operation} {answer : Answer mode}
    (outcome : Outcome key op answer after) {s : Signature mode} :
    answer = .signature s ↔ ∃ msg c, ∃ unused : key.privateKey.q < mode.leaves,
      key.Requests op msg c ∧ s = key.privateKey.signNext unused msg c := by
  refine ⟨outcome.of_signature, ?_⟩
  rintro ⟨msg, c, unused, request, rfl⟩
  cases outcome with
  | signed again =>
    obtain ⟨rfl, rfl⟩ := request.unique again
    rfl
  | exhausted _ used => exact absurd unused used
  | refused noRequest | idle noRequest => exact absurd request (noRequest msg c)

theorem Sound.sign_eq_serve (sound : key.Sound) (call : Call) :
    (key.sign call.msg call.randomizer).1 = (key.privateKey.serve call).1 ∧
      (key.sign call.msg call.randomizer).2.privateKey = (key.privateKey.serve call).2 := by
  cases read : mode.readRandomizer call.randomizer with
  | error e =>
    rw [sign_of_refused read, PrivateKey.serve_of_refused read]
    exact ⟨rfl, rfl⟩
  | ok c =>
    by_cases unused : key.privateKey.q < mode.leaves
    · rw [sound.sign read unused, PrivateKey.serve_of_unused read unused]
      exact ⟨rfl, privateKey_advance⟩
    · rw [sign_of_exhausted read unused, PrivateKey.serve_of_exhausted read unused]
      exact ⟨rfl, rfl⟩

theorem Sound.perform_eq_reply (sound : key.Sound) {op : Operation} (asks : op.asks = true)
    (offered : key.offers op = true) :
    key.privateKey.reply op = ((key.perform op).value.1, (key.perform op).value.2.privateKey) := by
  cases op with
  | sign msg randomizer =>
    obtain ⟨signed, left⟩ := sound.sign_eq_serve ⟨msg, randomizer⟩
    rw [perform_sign, signed, left]
    rfl
  | signGeneric msg =>
    obtain ⟨signed, left⟩ := sound.sign_eq_serve ⟨msg, none⟩
    rw [perform_signGeneric, signed, left]
    rfl
  | signRandomized source msg =>
    cases key with
    | signing key =>
      cases drawn : source mode.n with
      | none =>
        simp only [PrivateKey.reply, perform, performSigning, SigningKey.signRandomized, drawn]
        rfl
      | some c =>
        obtain ⟨signed, left⟩ := sound.sign_eq_serve ⟨msg, some c.bytes⟩
        rw [perform_signRandomized drawn, signed, left]
        simp only [PrivateKey.reply, drawn]
    | shared key => cases offered
  | publicKey =>
    have unchanged := (sound.perform_outcome .publicKey).privateKey_eq fun _ _ request => by cases request
    rw [sound.perform_publicKey, unchanged]
    rfl
  | save =>
    cases key with
    | signing key => rfl
    | shared key => cases offered
  | precompute | display | share | unshare => cases asks

theorem Sound.value_renew (registered : mode.Registered) {key : SigningKey mode} (sound : key.Sound)
    (withTree : Bool) : (renew withTree (.signing key)).value =
      (.done, .signing ⟨key.toPrivateKey, if withTree then some key.merkleTree else none⟩) := by
  simp only [renew, Logged.value_bind, Origin.start_encode registered sound.inRange withTree]
  rfl

/-! ### Uses -/

/-- From `key` on, `exchanges` are what is answered without a tree, and `after` is what
is left. -/
structure Follows (key : Key mode) (exchanges : List (Exchange mode)) (after : Key mode) : Prop where
  sound : after.Sound
  id_eq : after.privateKey.id = key.privateKey.id
  seed_eq : after.privateKey.seed = key.privateKey.seed
  replies : key.privateKey.replies (exchanges.map Exchange.op) = (exchanges, after.privateKey)

theorem Follows.idle (sound : after.Sound) (same : after.privateKey = key.privateKey) :
    key.Follows [] after :=
  ⟨sound, by rw [same], by rw [same], by rw [same]; rfl⟩

theorem Follows.trans {last : Key mode} {exchanges others : List (Exchange mode)}
    (first : key.Follows exchanges after) (rest : after.Follows others last) :
    key.Follows (exchanges ++ others) last where
  sound := rest.sound
  id_eq := rest.id_eq.trans first.id_eq
  seed_eq := rest.seed_eq.trans first.seed_eq
  replies := by rw [List.map_append, PrivateKey.replies_append, first.replies, rest.replies]

theorem Follows.unique {other last : Key mode} {exchanges others : List (Exchange mode)}
    (follows : key.Follows exchanges after) (again : other.Follows others last)
    (same : other.privateKey = key.privateKey)
    (asked : others.map Exchange.op = exchanges.map Exchange.op) :
    others = exchanges ∧ last.privateKey = after.privateKey := by
  have replies := again.replies
  rw [same, asked, follows.replies] at replies
  exact ⟨congrArg Prod.fst replies.symm, congrArg Prod.snd replies.symm⟩

theorem Sound.operate (sound : key.Sound) (op : Operation) :
    key.Follows (key.use (.operate op)).value.1 (key.use (.operate op)).value.2 := by
  have outcome := sound.perform_outcome op
  simp only [use, Logged.value_bind, Logged.value_pure]
  split
  · next asked =>
    obtain ⟨asks, offered⟩ := Bool.and_eq_true_iff.1 asked
    refine ⟨outcome.sound sound, outcome.id_eq, outcome.seed_eq, ?_⟩
    simp only [List.map_cons, List.map_nil, PrivateKey.replies, sound.perform_eq_reply asks offered]
  · next silent =>
    -- What is not recorded was no request to sign, so no leaf was used up.
    refine .idle (outcome.sound sound) (outcome.privateKey_eq fun msg c request => silent ?_)
    exact Bool.and_eq_true_iff.2 request.asked

theorem Sound.renew (registered : mode.Registered) (sound : key.Sound) (withTree : Bool) :
    key.Follows [] (key.renew withTree).value.2 := by
  cases key with
  | shared key => exact .idle sound rfl
  | signing key =>
    rw [Sound.value_renew registered sound withTree]
    exact .idle (Origin.sound_start
      (Origin.start_encode registered (SigningKey.Sound.inRange sound) withTree)) rfl

theorem Sound.use (registered : mode.Registered) (sound : key.Sound) (use : Use) :
    key.Follows (key.use use).value.1 (key.use use).value.2 := by
  cases use with
  | operate op => exact sound.operate op
  | renew withTree => exact sound.renew registered withTree

theorem Sound.record (registered : mode.Registered) (sound : key.Sound) (uses : List Use) :
    key.Follows (key.record uses).value.1 (key.record uses).value.2 := by
  induction uses generalizing key with
  | nil => exact .idle sound rfl
  | cons use uses ih =>
    have first := sound.use registered use
    exact first.trans (ih first.sound)

/-- What holds of a key from `id` and `seed` at every point of its life: its tree, if
it has one, is theirs, the public key is that of the tree, and a signature depends on
nothing but them, the leaf, the message and the randomizer. It does what its form
offers, and a signing key can be written and read. -/
structure Transparent (key : Key mode) (id : Identifier) (seed : Octets mode.n) : Prop where
  id_eq : key.privateKey.id = id
  seed_eq : key.privateKey.seed = seed
  unavailable : ∀ op, (key.perform op).value.1 = .unavailable ↔ key.offers op = false
  tree : ∀ tree, key.tree? = some tree → tree = Tree.generate mode id seed
  publicKey : (key.perform .publicKey).value.1 = .publicKey ⟨id, (Tree.generate mode id seed).root⟩
  signature : ∀ op s, (key.perform op).value.1 = .signature s ↔
    ∃ msg c, ∃ unused : key.privateKey.q < mode.leaves, key.Requests op msg c ∧
      s = PrivateKey.signLeaf ⟨0, id, seed⟩ (Tree.generate mode id seed) ⟨_, unused⟩ msg c
  renewed : ∀ signing, key = .signing signing → ∀ withTree, (key.renew withTree).value =
    (.done, .signing ⟨signing.toPrivateKey,
      if withTree then some (Tree.generate mode id seed) else none⟩)

theorem Sound.transparent (registered : mode.Registered) (sound : key.Sound) :
    key.Transparent key.privateKey.id key.privateKey.seed where
  id_eq := rfl
  seed_eq := rfl
  unavailable := perform_eq_unavailable_iff
  tree _ present := sound.eq_merkleTree present
  publicKey := sound.perform_publicKey
  signature op s := (sound.perform_outcome op).eq_signature_iff
  renewed := by
    rintro signing rfl withTree
    exact Sound.value_renew registered sound withTree

end Key

/-- The tree is only a cache. However a key came about and whatever was done with it,
it is as one without a tree, and any other key that began with the same counter,
identifier and seed and was asked the same has given the same answers and is left with
the same counter. -/
theorem cache_unobservable (registered : mode.Registered) {origin : Origin} {first : SigningKey mode}
    (started : (origin.start mode).value = .ok first) (uses : List Use) :
    let run := (Key.record (.signing first) uses).value
    run.2.Transparent first.id first.seed ∧
      first.toPrivateKey.replies (run.1.map Exchange.op) = (run.1, run.2.privateKey) ∧
      ∀ (origin : Origin) (other : SigningKey mode) (others : List Use),
        (origin.start mode).value = .ok other → other.toPrivateKey = first.toPrivateKey →
          let again := (Key.record (.signing other) others).value
          again.1.map Exchange.op = run.1.map Exchange.op →
            again.1 = run.1 ∧ again.2.privateKey = run.2.privateKey := by
  intro run
  have sound : (Key.signing first).Sound := Origin.sound_start started
  have follows := sound.record registered uses
  have transparent := follows.sound.transparent registered
  rw [follows.id_eq, follows.seed_eq] at transparent
  refine ⟨transparent, follows.replies, ?_⟩
  intro origin other others startedOther same again asked
  have soundOther : (Key.signing other).Sound := Origin.sound_start startedOther
  exact follows.unique (soundOther.record registered others) same asked

theorem cache_unobservable_oneLeafLeft :
    let eager : SigningKey _ := ⟨oneLeafLeft, some oneLeafLeft.merkleTree⟩
    let lazy : SigningKey _ := ⟨oneLeafLeft, none⟩
    let uses : List Use := [.operate .save, .operate (.sign [1] none), .operate (.signGeneric [2])]
    let others : List Use := [.renew false, .operate .save, .operate .share, .operate (.sign [1] none),
      .operate .unshare, .operate .precompute, .operate (.signGeneric [2]), .renew true]
    ((Origin.bytes oneLeafLeft.encode true).start _).value = .ok eager ∧
      ((Origin.bytes oneLeafLeft.encode false).start _).value = .ok lazy ∧
      (Key.record (.signing lazy) others).value.1 = (Key.record (.signing eager) uses).value.1 := by
  have registered := ParameterSet.registered_modeWith ⟨.n24, .h5⟩ Sha256.digest ⟨.n24, .w8⟩
  have eager := Origin.start_encode registered (show oneLeafLeft.q ≤ _ by decide) true
  have lazy := Origin.start_encode registered (show oneLeafLeft.q ≤ _ by decide) false
  have unobservable := (cache_unobservable registered eager
    [.operate .save, .operate (.sign [1] none), .operate (.signGeneric [2])]).2.2
  refine ⟨eager, lazy, (unobservable _ _ _ lazy rfl ?_).1⟩
  rfl

end HashSig.ManyTime
