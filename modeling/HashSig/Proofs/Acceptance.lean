import HashSig.Proofs.Chain
import HashSig.Proofs.Outcome
import HashSig.Proofs.Tree
import Mathlib.Data.List.Forall2

/-! Every signature is accepted.

A signature made with a leaf climbs to the root of the key's tree
(`PrivateKey.check_signLeaf`). A key may be used, saved, and read again any number
of times (`Holder.live`); its public key stays the same, and every signature made
on the way is valid under it.
-/

set_option autoImplicit false

namespace HashSig.ManyTime

variable {mode : Mode}

namespace PrivateKey

variable (key : PrivateKey mode) (leaf : Leaf mode) (msg : Bytes) (c : Option (Octets mode.n))

theorem recover_signLeaf :
    (key.signLeaf key.merkleTree leaf msg c).recover key.id msg = key.publicHalf.root := by
  have oneTime := (OneTime.PrivateKey.derive leaf.index key.id key.seed :
    OneTime.PrivateKey mode.oneTime).recover_sign msg (c.getD (key.randomizer leaf))
  have climbed := climb_generate key.id key.seed leaf
  rw [Mode.oneTimeValue, ← oneTime] at climbed
  exact climbed

theorem check_signLeaf :
    key.publicHalf.check msg (key.signLeaf key.merkleTree leaf msg c) = .ok () :=
  if_pos (key.recover_signLeaf leaf msg c).symm

theorem publicHalf_congr {key other : PrivateKey mode} (id : other.id = key.id)
    (seed : other.seed = key.seed) : other.publicHalf = key.publicHalf := by
  rw [publicHalf, publicHalf, merkleTree, merkleTree, id, seed]

end PrivateKey

/-! ## One operation -/

namespace Operation

def message? : Operation → Option Bytes
  | .sign msg _ | .signGeneric msg | .signRandomized _ msg => some msg
  | _ => none

/-- The randomizer that comes with the operation, if one does: the caller's, or
what the source gives when it is asked for `n` bytes. -/
def supplied? (n : Nat) : Operation → Option Bytes
  | .sign _ randomizer => randomizer
  | .signRandomized source _ => (source n).map Octets.bytes
  | _ => none

end Operation

/-- The signature answers the operation: it is valid for the message under the key,
for the verifier of byte strings too if the mode is one of registered sets, and it
has the randomizer that came with the operation. -/
structure PublicKey.Accepts (key : PublicKey mode) (op : Operation) (s : Signature mode) : Prop where
  valid : ∃ msg, op.message? = some msg ∧ key.check msg s = .ok () ∧
    ∀ (H : Digest) (set : ParameterSet) (oneTime : OneTime.ParameterSet), set.size = oneTime.size →
      mode = set.modeWith H oneTime → (ManyTime.verifyWith H key.encode msg s.encode).value = .ok ()
  randomizer : ∀ c, op.supplied? mode.n = some c → s.oneTime.c.bytes = c

namespace Key

variable {key : Key mode} {op : Operation}

theorem Requests.message? {msg : Bytes} {c : Option (Octets mode.n)}
    (request : key.Requests op msg c) : op.message? = some msg := by
  cases request <;> rfl

theorem Requests.supplied? {msg : Bytes} {c : Option (Octets mode.n)}
    (request : key.Requests op msg c) : op.supplied? mode.n = c.map Octets.bytes := by
  cases request with
  | sign same => exact same
  | signGeneric => rfl
  | signRandomized drawn => exact congrArg (Option.map Octets.bytes) drawn

theorem Requests.accepts_signNext {msg : Bytes} {c : Option (Octets mode.n)}
    (request : key.Requests op msg c) (unused : key.privateKey.q < mode.leaves) :
    key.privateKey.publicHalf.Accepts op (key.privateKey.signNext unused msg c) := by
  have checked := key.privateKey.check_signLeaf ⟨_, unused⟩ msg c
  refine ⟨⟨msg, request.message?, checked, ?_⟩, ?_⟩
  · rintro H set oneTime sizes rfl
    rw [verify_encode sizes]
    exact checked
  · intro bytes supplied
    rw [request.supplied?] at supplied
    obtain ⟨c, rfl, rfl⟩ := Option.map_eq_some_iff.1 supplied
    rfl

theorem Outcome.accepts {answer : Answer mode} {after : Key mode}
    (outcome : Outcome key op answer after) {s : Signature mode} (signed : answer = .signature s) :
    key.privateKey.publicHalf.Accepts op s := by
  obtain ⟨msg, c, unused, request, rfl⟩ := outcome.of_signature signed
  exact request.accepts_signNext unused

theorem Sound.perform_publicKey (sound : key.Sound) :
    (key.perform .publicKey).value.1 = .publicKey key.privateKey.publicHalf := by
  cases key with
  | signing key =>
    simp only [perform, performSigning, SigningKey.publicKey, Logged.value_bind,
      SigningKey.Sound.value_withTree sound]
    rfl
  | shared key =>
    simp only [perform, performShared, SharedKey.publicKey, SharedKey.Sound.cached sound]
    rfl

end Key

/-! ## A key in someone's hands -/

inductive Action where
  | operate (op : Operation)
  /-- Go back to bytes that were saved, the latest ones being number zero, and read
  them with the tree or without. -/
  | reload (number : Nat) (withTree : Bool)

/-- A key in use and the bytes that it was saved as, the latest first. -/
structure Holder (mode : Mode) where
  key : Key mode
  saved : List Bytes

namespace Holder

def operate (holder : Holder mode) (op : Operation) : Logged (Answer mode × Holder mode) := do
  let (answer, key) ← holder.key.perform op
  match answer with
  | .bytes b => return (answer, ⟨key, b :: holder.saved⟩)
  | _ => return (answer, ⟨key, holder.saved⟩)

def reload (holder : Holder mode) (number : Nat) (withTree : Bool) :
    Logged (Answer mode × Holder mode) :=
  match holder.saved[number]? with
  | none => pure (.unavailable, holder)
  | some b => do
    match ← (Origin.bytes b withTree).start mode with
    | .ok key => return (.done, ⟨.signing key, holder.saved⟩)
    | .error e => return (.failed e, holder)

def act (holder : Holder mode) : Action → Logged (Answer mode × Holder mode)
  | .operate op => holder.operate op
  | .reload number withTree => holder.reload number withTree

def live : Holder mode → List Action → Logged (List (Answer mode) × Holder mode)
  | holder, [] => pure ([], holder)
  | holder, action :: actions => do
    let (answer, holder) ← holder.act action
    let (answers, holder) ← live holder actions
    return (answer :: answers, holder)

structure Keeps (holder : Holder mode) (id : Identifier) (seed : Octets mode.n) : Prop where
  sound : holder.key.Sound
  id_eq : holder.key.privateKey.id = id
  seed_eq : holder.key.privateKey.seed = seed
  saved : ∀ b ∈ holder.saved, ∃ q ≤ mode.leaves, b = PrivateKey.encode ⟨q, id, seed⟩

end Holder

/-- The answer to an action, when `key` is the public key of what is held: it is
that key if it was asked for, bytes that were saved are read, and a signature is
accepted. -/
structure PublicKey.Answers (key : PublicKey mode) (action : Action) (answer : Answer mode) :
    Prop where
  publicKey : action = .operate .publicKey → answer = .publicKey key
  reloaded : ∀ number withTree, action = .reload number withTree →
    answer = .done ∨ answer = .unavailable
  accepted : ∀ s, answer = .signature s → ∃ op, action = .operate op ∧ key.Accepts op s

namespace Holder

variable {holder : Holder mode} {id : Identifier} {seed : Octets mode.n}

theorem Keeps.publicHalf (keeps : holder.Keeps id seed) {q : UInt32} :
    holder.key.privateKey.publicHalf = PrivateKey.publicHalf ⟨q, id, seed⟩ :=
  PrivateKey.publicHalf_congr keeps.id_eq keeps.seed_eq

theorem value_operate (op : Operation) :
    (holder.operate op).value.1 = (holder.key.perform op).value.1 ∧
    (holder.operate op).value.2.key = (holder.key.perform op).value.2 := by
  simp only [operate, Logged.value_bind]
  split <;> exact ⟨rfl, rfl⟩

theorem saved_operate {op : Operation} {b : Bytes}
    (member : b ∈ (holder.operate op).value.2.saved) :
    b ∈ holder.saved ∨ b = holder.key.privateKey.encode := by
  simp only [operate, Logged.value_bind] at member
  split at member
  · next given =>
    rcases List.mem_cons.1 member with rfl | older
    · exact .inr (Key.bytes_of_perform given)
    · exact .inl older
  · exact .inl member

theorem Keeps.operate (keeps : holder.Keeps id seed) (op : Operation) :
    (holder.operate op).value.2.Keeps id seed := by
  have outcome := keeps.sound.perform_outcome op
  obtain ⟨-, after⟩ := holder.value_operate op
  refine ⟨?_, ?_, ?_, ?_⟩
  · rw [after]
    exact outcome.sound keeps.sound
  · rw [after, outcome.id_eq, keeps.id_eq]
  · rw [after, outcome.seed_eq, keeps.seed_eq]
  · intro b member
    rcases saved_operate member with older | rfl
    · exact keeps.saved b older
    · refine ⟨_, keeps.sound.inRange, congrArg PrivateKey.encode (PrivateKey.ext rfl ?_ ?_)⟩
      · exact keeps.id_eq
      · exact keeps.seed_eq

theorem Keeps.answers_operate (keeps : holder.Keeps id seed) (op : Operation) :
    (PrivateKey.publicHalf ⟨0, id, seed⟩).Answers (.operate op) (holder.operate op).value.1 := by
  rw [(holder.value_operate op).1, ← keeps.publicHalf]
  refine ⟨?_, nofun, ?_⟩
  · rintro ⟨⟩
    exact keeps.sound.perform_publicKey
  · intro s signed
    exact ⟨op, rfl, (keeps.sound.perform_outcome op).accepts signed⟩

-- Bytes that were saved are always read.
theorem Keeps.value_reload (registered : mode.Registered) (keeps : holder.Keeps id seed)
    (number : Nat) (withTree : Bool) :
    (holder.reload number withTree).value = (.unavailable, holder) ∨
      ∃ key : SigningKey mode, key.Sound ∧ key.id = id ∧ key.seed = seed ∧
        (holder.reload number withTree).value = (.done, ⟨.signing key, holder.saved⟩) := by
  unfold Holder.reload
  split
  · exact .inl rfl
  · next b found =>
    -- The bytes are those of the same key with an earlier counter.
    obtain ⟨q, inRange, rfl⟩ := keeps.saved b (List.mem_of_getElem? found)
    have bound : (PrivateKey.mk q id seed).q ≤ mode.leaves := inRange
    have read := Origin.start_encode registered bound withTree
    refine .inr ⟨_, Origin.sound_start read, rfl, rfl, ?_⟩
    simp only [Logged.value_bind, read]
    rfl

theorem Keeps.reload (registered : mode.Registered) (keeps : holder.Keeps id seed) (number : Nat)
    (withTree : Bool) : (holder.reload number withTree).value.2.Keeps id seed := by
  rcases keeps.value_reload registered number withTree with none | ⟨key, sound, idSame, seedSame, read⟩
  · rw [none]
    exact keeps
  · rw [read]
    exact ⟨sound, idSame, seedSame, keeps.saved⟩

theorem Keeps.answers_reload (registered : mode.Registered) (keeps : holder.Keeps id seed)
    (number : Nat) (withTree : Bool) :
    (PrivateKey.publicHalf ⟨0, id, seed⟩).Answers (.reload number withTree)
      (holder.reload number withTree).value.1 := by
  rcases keeps.value_reload registered number withTree with none | ⟨key, -, -, -, read⟩
  · rw [none]
    exact ⟨nofun, fun _ _ _ => .inr rfl, nofun⟩
  · rw [read]
    exact ⟨nofun, fun _ _ _ => .inl rfl, nofun⟩

theorem Keeps.act (registered : mode.Registered) (keeps : holder.Keeps id seed) (action : Action) :
    (holder.act action).value.2.Keeps id seed ∧
      (PrivateKey.publicHalf ⟨0, id, seed⟩).Answers action (holder.act action).value.1 := by
  cases action with
  | operate op => exact ⟨keeps.operate op, keeps.answers_operate op⟩
  | reload number withTree =>
    exact ⟨keeps.reload registered number withTree, keeps.answers_reload registered number withTree⟩

theorem live_cons (action : Action) (actions : List Action) :
    (holder.live (action :: actions)).value =
      ((holder.act action).value.1 :: ((holder.act action).value.2.live actions).value.1,
        ((holder.act action).value.2.live actions).value.2) := rfl

theorem Keeps.live (registered : mode.Registered) (keeps : holder.Keeps id seed)
    (actions : List Action) :
    (holder.live actions).value.2.Keeps id seed ∧
      List.Forall₂ (PrivateKey.publicHalf ⟨0, id, seed⟩).Answers actions
        (holder.live actions).value.1 := by
  induction actions generalizing holder with
  | nil => exact ⟨keeps, .nil⟩
  | cons action actions ih =>
    obtain ⟨after, answers⟩ := keeps.act registered action
    obtain ⟨last, others⟩ := ih after
    rw [live_cons]
    exact ⟨last, .cons answers others⟩

end Holder

-- A seed of the right length always makes a key.
theorem Origin.start_seed (id : Identifier) (seed : Octets mode.n) :
    ((Origin.seed id seed.bytes).start mode).value =
      .ok (SigningKey.ofPrivateKey ⟨0, id, seed⟩).value := by
  simp only [start, SigningKey.ofSeed, PrivateKey.ofSeed, Octets.ofBytes?_bytes]
  rfl

/-- Every seed of the right length makes a key; and however a key comes about and
whatever is done with it, each signature that it gives is accepted under the
public key that it has all along, and it gives one as long as a leaf is left. -/
theorem signatures_accepted (registered : mode.Registered) {origin : Origin}
    {first : SigningKey mode} (started : (origin.start mode).value = .ok first)
    (actions : List Action) :
    let lived := (Holder.live ⟨.signing first, []⟩ actions).value
    let key := first.publicHalf
    (∀ id (seed : Octets mode.n), ∃ fresh, ((Origin.seed id seed.bytes).start mode).value = .ok fresh ∧
        fresh.id = id ∧ fresh.seed = seed) ∧
      List.Forall₂ key.Answers actions lived.1 ∧
      (lived.2.key.perform .publicKey).value.1 = .publicKey key ∧
      ∀ op msg c, lived.2.key.Requests op msg c → lived.2.key.privateKey.q < mode.leaves →
        ∃ s, (lived.2.key.perform op).value.1 = .signature s ∧ key.Accepts op s := by
  have begins : (Holder.mk (.signing first) []).Keeps first.id first.seed :=
    ⟨Origin.sound_start started, rfl, rfl, nofun⟩
  obtain ⟨keeps, answers⟩ := begins.live registered actions
  refine ⟨fun id seed => ⟨_, Origin.start_seed id seed, rfl, rfl⟩, answers, ?_, ?_⟩
  · rw [keeps.sound.perform_publicKey, keeps.publicHalf]
  · intro op msg c request unused
    have outcome := keeps.sound.perform_outcome op
    obtain ⟨s, signed⟩ := (outcome.granted_iff request).2 unused
    have accepted := outcome.accepts signed
    rw [keeps.publicHalf] at accepted
    exact ⟨s, signed, accepted⟩

def twoLeavesLeft : PrivateKey (ParameterSet.mode ⟨.n32, .h5⟩ ⟨.n32, .w4⟩) :=
  ⟨30, Octets.zero 16, Octets.zero 32⟩

theorem signatures_accepted_twoLeavesLeft :
    let start : SigningKey _ := ⟨twoLeavesLeft, some twoLeavesLeft.merkleTree⟩
    let actions : List Action := [.operate .save, .operate (.signGeneric [1]), .operate .share,
      .operate (.sign [2] (some (Octets.zero 32).bytes)), .reload 0 false, .operate (.signGeneric [3])]
    Mode.Registered (ParameterSet.mode ⟨.n32, .h5⟩ ⟨.n32, .w4⟩) ∧
      ((Origin.bytes twoLeavesLeft.encode true).start _).value = .ok start ∧
      List.Forall₂ start.publicHalf.Answers actions
        (Holder.live ⟨.signing start, []⟩ actions).value.1 := by
  have registered := ParameterSet.registered_modeWith ⟨.n32, .h5⟩ Sha256.digest ⟨.n32, .w4⟩
  have started := Origin.start_encode registered (show twoLeavesLeft.q ≤ _ by decide) true
  exact ⟨registered, started, (signatures_accepted registered started _).2.1⟩

end HashSig.ManyTime
