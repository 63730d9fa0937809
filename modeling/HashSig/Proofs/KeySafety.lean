import HashSig.Proofs.Caching
import HashSig.Proofs.KeyCodec
import HashSig.Proofs.TreeLevels

/-! No state of a key is one in which an operation goes out of range.

The operations of a key are written here once more with counters and node numbers in
words, with trees that are read and written only where they have nodes, and with trees
that are moved from one form of a key to the other. On a sound key each of them meets no
fault and does what the operation does (`Key.Sound.performGuarded_eq`), and every key that
comes about is sound (`Key.Arises.sound`), whatever bytes it was read from and however many
threads have used it.
-/

set_option autoImplicit false

namespace HashSig.ManyTime

open Guarded

variable {mode : Mode}

/-! ## Operations -/

namespace PrivateKey

def remainingGuarded (key : PrivateKey mode) : Guarded Nat := do
  sub (← mode.leavesGuarded) key.q.toNat

def decodeGuarded (mode : Mode) (b : Bytes) : Attempt (PrivateKey mode) := do
  mode.expectHeader .invalidPrivateKeyEncoding b
  let length ← add lengthBits 28 mode.n
  if b.length = length then
    let some q := (← dropFrom b 8).uint32At? 0 | throw .invalidPrivateKeyEncoding
    if q.toNat ≤ (← mode.leavesGuarded) then
      let (id, seed) ← splitAt (← dropFrom b 12) 16
      let some id := Octets.ofBytes? 16 id | throw .invalidPrivateKeyEncoding
      let some seed := Octets.ofBytes? mode.n seed | throw .invalidPrivateKeyEncoding
      return ⟨q, id, seed⟩
    else
      throw .invalidPrivateKeyEncoding
  else
    throw .invalidPrivateKeyEncoding

def buildGuarded (key : PrivateKey mode) : Guarded (SigningKey mode) := do
  return ⟨key, some (← Tree.generateGuarded mode key.id key.seed)⟩

def signLeafGuarded (key : PrivateKey mode) (tree : Tree mode) (q : UInt32) (msg : Bytes)
    (c : Option (Octets mode.n)) : Guarded (Signature mode) := do
  let c := c.getD (mode.hash.apply (.randomizer key.id q key.seed))
  let oneTime := (OneTime.PrivateKey.derive q key.id key.seed).sign msg c
  let path ← tree.pathGuarded q
  if whole : q < mode.leaves ∧ path.length = mode.height then
    return ⟨⟨q, whole.1⟩, oneTime, path, whole.2⟩
  else
    throw .assertion

end PrivateKey

def Origin.startGuarded (mode : Mode) : Origin → Attempt (SigningKey mode)
  | .seed id secret => do
    let key ← PrivateKey.ofSeed mode id secret
    key.buildGuarded
  | .random source => (PrivateKey.generate mode source).buildGuarded
  | .bytes b withTree => do
    let key ← PrivateKey.decodeGuarded mode b
    if withTree then key.buildGuarded else return ⟨key, none⟩

def SigningKey.takeTreeGuarded (key : SigningKey mode) : Guarded (Tree mode × SigningKey mode) :=
  match key.tree with
  | some tree => return (tree, { key with tree := none })
  | none => do
    let tree ← Tree.generateGuarded mode key.id key.seed
    return (tree, key)

def SigningKey.shareGuarded (key : SigningKey mode) : Guarded (SharedKey mode) := do
  let (tree, left) ← key.takeTreeGuarded
  return ⟨left.toPrivateKey, tree⟩

/-- The signing key that a shared key becomes, and what is left of the shared key. -/
def SharedKey.release (key : SharedKey mode) : SigningKey mode × SharedKey mode :=
  let (tree, emptied) := key.tree.take
  (⟨key.toPrivateKey, some tree⟩, { key with tree := emptied })

namespace Key

def treeGuarded : Key mode → Guarded (Tree mode × Key mode)
  | .signing key =>
    match key.tree with
    | some tree => return (tree, .signing key)
    | none => do
      let tree ← Tree.generateGuarded mode key.id key.seed
      return (tree, .signing { key with tree := some tree })
  | .shared key => return (key.tree, .shared key)

/-- Takes the next leaf out of use. A shared key computes its next counter whether a leaf
is left or not. -/
def reserveGuarded : Key mode → Guarded (Except Error UInt32 × Key mode)
  | .signing key => do
    let leaves ← mode.leavesGuarded
    if leaves ≤ key.q.toNat then return (.error .keyExhausted, .signing key)
    let next ← add 32 key.q.toNat 1
    return (.ok key.q, .signing { key with q := UInt32.ofNat next })
  | .shared key => do
    let leaves ← mode.leavesGuarded
    let next ← add 32 key.q.toNat 1
    if leaves ≤ key.q.toNat then return (.error .keyExhausted, .shared key)
    return (.ok key.q, .shared { key with q := UInt32.ofNat next })

def signGuarded (key : Key mode) (msg : Bytes) (randomizer : Option Bytes) :
    Guarded (Except Error (Signature mode) × Key mode) :=
  match mode.readRandomizer randomizer with
  | .error e => return (.error e, key)
  | .ok c => do
    let (reserved, key) ← key.reserveGuarded
    match reserved with
    | .error e => return (.error e, key)
    | .ok q =>
      let (tree, key) ← key.treeGuarded
      return (.ok (← key.privateKey.signLeafGuarded tree q msg c), key)

def publicKeyGuarded (key : Key mode) : Guarded (PublicKey mode × Key mode) := do
  let (tree, key) ← key.treeGuarded
  return (⟨key.privateKey.id, ← tree.rootGuarded⟩, key)

def performGuarded : Key mode → Operation → Guarded (Answer mode × Key mode)
  | key, .sign msg randomizer => do
    let (answer, key) ← key.signGuarded msg randomizer
    return (.ofSign answer, key)
  | key, .signGeneric msg => do
    let (answer, key) ← key.signGuarded msg none
    return (.ofGeneric (withhold answer), key)
  | .signing key, .signRandomized source msg =>
    match source mode.n with
    | none => return (.refused .withheld, .signing key)
    | some c => do
      let (answer, key) ← signGuarded (.signing key) msg (some c.bytes)
      return (.ofGeneric (withhold answer), key)
  | .signing key, .precompute => do
    let (_, key) ← treeGuarded (.signing key)
    return (.done, key)
  | key, .publicKey => do
    let (publicKey, key) ← key.publicKeyGuarded
    return (.publicKey publicKey, key)
  | .signing key, .save => return (.bytes key.encode, .signing key)
  | .signing key, .display => return (.text key.display, .signing key)
  | .shared key, .display => return (.text key.display, .shared key)
  | .signing key, .share => do
    let shared ← key.shareGuarded
    return (.done, .shared shared)
  | .shared key, .unshare => return (.done, .signing key.release.1)
  | key, _ => return (.unavailable, key)

def runGuarded : Key mode → List Operation → Guarded (List (Answer mode) × Key mode)
  | key, [] => return ([], key)
  | key, op :: ops => do
    let (answer, key) ← key.performGuarded op
    let (answers, key) ← runGuarded key ops
    return (answer :: answers, key)

end Key

/-! ## Counters -/

theorem Mode.succ_leaves_lt (mode : Mode) : mode.leaves.toNat + 1 < 2 ^ 32 := by
  have fits := mode.two_mul_leaves_lt
  have positive := Nat.two_pow_pos mode.height
  rw [mode.toNat_leaves]
  omega

namespace PrivateKey

variable {key : PrivateKey mode}

theorem remainingGuarded_eq (inRange : key.q ≤ mode.leaves) :
    key.remainingGuarded = .ok key.remaining.toNat := by
  rw [remainingGuarded, mode.leavesGuarded_eq, ok_bind, sub_eq (UInt32.le_iff_toNat_le.1 inRange),
    toNat_remaining inRange]

theorem nextGuarded_eq (inRange : key.q ≤ mode.leaves) :
    add 32 key.q.toNat 1 = .ok (key.q.toNat + 1) :=
  add_eq (Nat.lt_of_le_of_lt (Nat.succ_le_succ (UInt32.le_iff_toNat_le.1 inRange)) mode.succ_leaves_lt)

theorem nodeGuarded_eq (inRange : key.q ≤ mode.leaves) :
    add 32 key.q.toNat mode.leaves.toNat = .ok (key.q.toNat + mode.leaves.toNat) := by
  have fits := mode.two_mul_leaves_lt
  have bound := UInt32.le_iff_toNat_le.1 inRange
  rw [mode.toNat_leaves] at bound
  exact add_eq (by rw [mode.toNat_leaves]; omega)

theorem ofNat_next (key : PrivateKey mode) : UInt32.ofNat (key.q.toNat + 1) = key.q + 1 := by
  rw [UInt32.ofNat_add, UInt32.ofNat_toNat]
  rfl

/-! ## Signing -/

theorem signLeafGuarded_eq {tree : Tree mode} (size : tree.nodes.size = 2 * mode.leaves.toNat)
    (leaf : Leaf mode) (msg : Bytes) (c : Option (Octets mode.n)) :
    key.signLeafGuarded tree leaf.index msg c = .ok (key.signLeaf tree leaf msg c) := by
  rw [signLeafGuarded, Tree.pathGuarded_eq size leaf, ok_bind,
    dif_pos ⟨leaf.index_lt, tree.length_path leaf⟩]
  rfl

theorem size_merkleTree (key : PrivateKey mode) :
    key.merkleTree.nodes.size = 2 * mode.leaves.toNat :=
  Tree.size_generate_leaves key.id key.seed

end PrivateKey

theorem SigningKey.shareGuarded_eq (key : SigningKey mode) : key.shareGuarded = .ok key.share.value := by
  obtain ⟨lasting, _ | tree⟩ := key
  · simp only [shareGuarded, takeTreeGuarded, Tree.generateGuarded_eq]
    rfl
  · rfl

namespace Key

variable {key : Key mode}

def count : Key mode → Key mode
  | .signing key => .signing ⟨key.next, key.tree⟩
  | .shared key => .shared ⟨key.next, key.tree⟩

def built : Key mode → Key mode
  | .signing key => .signing key.built
  | .shared key => .shared key

theorem Sound.count (sound : key.Sound) (unused : key.privateKey.q < mode.leaves) : key.count.Sound := by
  cases key with
  | signing key =>
    have sound : key.Sound := sound
    exact ⟨PrivateKey.next_le unused, sound.cached⟩
  | shared key => exact SharedKey.Sound.advance sound unused

theorem built_count (key : Key mode) : key.count.built = key.advance := by
  cases key <;> rfl

theorem privateKey_built (key : Key mode) : key.built.privateKey = key.privateKey := by
  cases key <;> rfl

theorem Sound.treeGuarded_eq (sound : key.Sound) :
    key.treeGuarded = .ok (key.privateKey.merkleTree, key.built) := by
  cases key with
  | signing key =>
    obtain ⟨lasting, _ | tree⟩ := key
    · simp only [treeGuarded, Tree.generateGuarded_eq]
      rfl
    · have same : tree = lasting.merkleTree := SigningKey.Sound.cached sound tree rfl
      subst same
      rfl
  | shared key =>
    have same : key.tree = key.merkleTree := SharedKey.Sound.cached sound
    rw [treeGuarded, same]
    rfl

theorem Sound.reserveGuarded_of_used (sound : key.Sound) (used : ¬ key.privateKey.q < mode.leaves) :
    key.reserveGuarded = .ok (.error .keyExhausted, key) := by
  have used := Nat.le_of_not_lt (mt UInt32.lt_iff_toNat_lt.2 used)
  have next := PrivateKey.nextGuarded_eq sound.inRange
  cases key with
  | signing key =>
    dsimp only [privateKey] at used
    rw [reserveGuarded, mode.leavesGuarded_eq, ok_bind, if_pos used]
    rfl
  | shared key =>
    dsimp only [privateKey] at used next
    rw [reserveGuarded, mode.leavesGuarded_eq, ok_bind, next, ok_bind, if_pos used]
    rfl

theorem Sound.reserveGuarded_of_unused (sound : key.Sound) (unused : key.privateKey.q < mode.leaves) :
    key.reserveGuarded = .ok (.ok key.privateKey.q, key.count) := by
  have unused := Nat.not_le.2 (UInt32.lt_iff_toNat_lt.1 unused)
  have next := PrivateKey.nextGuarded_eq sound.inRange
  have number := key.privateKey.ofNat_next
  cases key with
  | signing key =>
    dsimp only [privateKey] at unused next number
    rw [reserveGuarded, mode.leavesGuarded_eq, ok_bind, if_neg unused, next, ok_bind, number]
    rfl
  | shared key =>
    dsimp only [privateKey] at unused next number
    rw [reserveGuarded, mode.leavesGuarded_eq, ok_bind, next, ok_bind, if_neg unused, number]
    rfl

theorem privateKey_count (key : Key mode) : key.count.privateKey = key.privateKey.next := by
  cases key <;> rfl

theorem Sound.signGuarded_eq (sound : key.Sound) (msg : Bytes) (randomizer : Option Bytes) :
    key.signGuarded msg randomizer = .ok (key.sign msg randomizer) := by
  cases read : mode.readRandomizer randomizer with
  | error e =>
    rw [signGuarded, read, sign_of_refused read]
    rfl
  | ok c =>
    by_cases unused : key.privateKey.q < mode.leaves
    · -- The leaf is used up before the tree is asked for.
      have tree := (sound.count unused).treeGuarded_eq
      rw [built_count, privateKey_count] at tree
      have signed : key.advance.privateKey.signLeafGuarded key.privateKey.next.merkleTree key.privateKey.q msg c =
          .ok (key.privateKey.signNext unused msg c) := by
        rw [privateKey_advance]
        exact PrivateKey.signLeafGuarded_eq key.privateKey.next.size_merkleTree ⟨_, unused⟩ msg c
      simp only [signGuarded, read, sound.reserveGuarded_of_unused unused, ok_bind, tree, signed,
        sound.sign read unused]
      rfl
    · simp only [signGuarded, read, sound.reserveGuarded_of_used unused, ok_bind, sign_of_exhausted read unused]
      rfl

theorem Sound.publicKeyGuarded_eq (sound : key.Sound) :
    key.publicKeyGuarded = .ok (key.privateKey.publicHalf, key.built) := by
  have root := Tree.rootGuarded_eq key.privateKey.size_merkleTree
  simp only [publicKeyGuarded, sound.treeGuarded_eq, ok_bind, root, privateKey_built]
  rfl

theorem Sound.performGuarded_eq (sound : key.Sound) (op : Operation) :
    key.performGuarded op = .ok (key.perform op).value := by
  cases op with
  | sign msg randomizer =>
    rw [performGuarded, sound.signGuarded_eq, perform_sign]
    rfl
  | signGeneric msg =>
    rw [performGuarded, sound.signGuarded_eq, perform_signGeneric]
    rfl
  | signRandomized source msg =>
    cases key with
    | signing key =>
      cases drawn : source mode.n with
      | some c =>
        rw [performGuarded, drawn, perform_signRandomized drawn]
        dsimp only
        rw [sound.signGuarded_eq]
        rfl
      | none =>
        simp only [performGuarded, perform, performSigning, SigningKey.signRandomized, drawn]
        rfl
    | shared key => rfl
  | precompute =>
    cases key with
    | signing key =>
      have found : key.precompute.value = key.built :=
        congrArg Prod.snd (SigningKey.Sound.value_withTree sound)
      simp only [performGuarded, sound.treeGuarded_eq, perform, performSigning, Logged.value_bind, found]
      rfl
    | shared key => rfl
  | publicKey =>
    rw [performGuarded, sound.publicKeyGuarded_eq]
    cases key with
    | signing key =>
      simp only [perform, performSigning, SigningKey.publicKey, Logged.value_bind,
        SigningKey.Sound.value_withTree sound]
      rfl
    | shared key =>
      have same : key.tree = key.merkleTree := SharedKey.Sound.cached sound
      simp only [perform, performShared, SharedKey.publicKey, same]
      rfl
  | share =>
    cases key with
    | signing key =>
      simp only [performGuarded, key.shareGuarded_eq, perform, performSigning, Logged.value_bind]
      rfl
    | shared key => rfl
  | save | display | unshare => cases key <;> rfl

theorem Sound.runGuarded_eq (sound : key.Sound) (ops : List Operation) :
    key.runGuarded ops = .ok (key.run ops).value := by
  induction ops generalizing key with
  | nil => rfl
  | cons op ops ih =>
    have after := (sound.perform_outcome op).sound sound
    simp only [runGuarded, sound.performGuarded_eq, ok_bind, ih after, run_cons]
    rfl

end Key

/-! ## Beginnings -/

theorem PrivateKey.buildGuarded_eq (key : PrivateKey mode) :
    key.buildGuarded = .ok ⟨key, some key.merkleTree⟩ := by
  rw [buildGuarded, Tree.generateGuarded_eq]
  rfl

theorem PrivateKey.answers_decodeGuarded (mode : Mode) (b : Bytes) :
    (decodeGuarded mode b).Answers (decode mode b) := by
  have small : 28 + mode.n < 2 ^ lengthBits :=
    Nat.lt_of_le_of_lt (Nat.add_le_add_left mode.hash.size.octets_bounds.2 _) (by decide)
  rw [decodeGuarded, decode]
  refine .bind (.lift _) fun _ _ => .guarded (add_eq small) ?_
  by_cases exact : b.length = mode.privateKeyLength
  · have whole : b.length = 28 + mode.n := exact
    have q : Bytes.uint32At? (b.drop 8) 0 = some (b.uint32At 8 (by omega)) :=
      Bytes.uint32At?_of_le (show 8 + 4 ≤ b.length by omega)
    have id := Octets.ofBytes?_take_drop (show 12 + 16 ≤ b.length by omega)
    have seed := Octets.ofBytes?_drop whole
    rw [if_pos exact, dif_pos exact]
    refine .guarded (dropFrom_eq (by omega)) ?_
    simp only [q]
    refine .guarded mode.leavesGuarded_eq ?_
    by_cases inRange : b.uint32At 8 (by omega) ≤ mode.leaves
    · rw [if_pos (UInt32.le_iff_toNat_le.1 inRange), if_pos inRange]
      refine .guarded (dropFrom_eq (by omega)) (.guarded (splitAt_eq (by rw [List.length_drop]; omega)) ?_)
      simp only [id, List.drop_drop, seed]
      exact .pure _
    · rw [if_neg (mt UInt32.le_iff_toNat_le.2 inRange), if_neg inRange]
      exact .throw _
  · rw [if_neg exact, dif_neg exact]
    exact .throw _

theorem Origin.answers_startGuarded (mode : Mode) (origin : Origin) :
    (origin.startGuarded mode).Answers (origin.start mode).value := by
  cases origin with
  | seed id secret =>
    rw [startGuarded, start, SigningKey.ofSeed]
    cases PrivateKey.ofSeed mode id secret with
    | error e => exact .throw e
    | ok key =>
      refine .answered ?_
      rw [key.buildGuarded_eq]
      exact .pure _
  | random source =>
    rw [startGuarded, PrivateKey.buildGuarded_eq]
    exact .pure _
  | bytes b withTree =>
    rw [startGuarded, value_start_bytes]
    refine .bind (PrivateKey.answers_decodeGuarded mode b) fun key _ => ?_
    cases withTree with
    | false => exact .pure _
    | true =>
      simp only [if_true, key.buildGuarded_eq]
      exact .pure _

/-! ## Every key that comes about -/

namespace Key

/-- A key that comes about: one that was made or read, what an operation makes of such a
key, and a shared one at any moment while threads use it. -/
inductive Arises : Key mode → Prop where
  | start {origin : Origin} {first : SigningKey mode} (started : (origin.start mode).value = .ok first) :
      Arises (.signing first)
  | perform {key : Key mode} (arises : Arises key) (op : Operation) : Arises (key.perform op).value.2
  | threads {count : Nat} {key : SharedKey mode} {calls : Fin count → List Call}
      {order : List (Fin count × Call)} {sys : System mode count} (arises : Arises (.shared key))
      (steps : (System.start key calls).Steps order sys) : Arises (.shared sys.key)

/-- The key's counter and its tree are as all operations need them. -/
structure Safe (key : Key mode) : Prop where
  remaining : key.privateKey.remainingGuarded = .ok key.privateKey.remaining.toNat
  next : add 32 key.privateKey.q.toNat 1 = .ok (key.privateKey.q.toNat + 1)
  node : add 32 key.privateKey.q.toNat mode.leaves.toNat =
    .ok (key.privateKey.q.toNat + mode.leaves.toNat)
  size : ∀ tree, key.tree? = some tree → tree.nodes.size = 2 * mode.leaves.toNat
  root : ∀ tree, key.tree? = some tree → tree.rootGuarded = .ok tree.root
  path : ∀ tree, key.tree? = some tree → ∀ leaf : Leaf mode,
    tree.pathGuarded leaf.index = .ok ((siblingsUp mode.height leaf.node).map tree.node)
  perform : ∀ op, key.performGuarded op = .ok (key.perform op).value
  run : ∀ ops, key.runGuarded ops = .ok (key.run ops).value

variable {key : Key mode}

theorem Arises.sound (arises : key.Arises) : key.Sound := by
  induction arises with
  | start started => exact Origin.sound_start started
  | perform _ op ih => exact (ih.perform_outcome op).sound ih
  | threads _ steps ih => exact (steps.agrees ih).sound

theorem Sound.safe (sound : key.Sound) : key.Safe := by
  have size (tree : Tree mode) (present : key.tree? = some tree) :
      tree.nodes.size = 2 * mode.leaves.toNat := by
    rw [sound.eq_merkleTree present, PrivateKey.size_merkleTree]
  exact {
    remaining := PrivateKey.remainingGuarded_eq sound.inRange
    next := PrivateKey.nextGuarded_eq sound.inRange
    node := PrivateKey.nodeGuarded_eq sound.inRange
    size := size
    root := fun tree present => Tree.rootGuarded_eq (size tree present)
    path := fun tree present leaf => by rw [Tree.pathGuarded_eq (size tree present), Tree.path_eq]
    perform := sound.performGuarded_eq
    run := sound.runGuarded_eq }

end Key

-- What is left of a shared key has a tree without nodes.
theorem SharedKey.not_safe_release (key : SharedKey mode) : ¬ (Key.shared key.release.2).Safe := by
  intro safe
  have root := safe.root _ rfl
  cases root

/-- Every key that comes about is safe to use, from whatever it was made or read, whatever
was done with it, and however many threads share it; what is left of a shared key once its
tree was moved out is no such key. Trees are built without a fault, in one pass or level by
level, and the path of a leaf has as many nodes as the tree has levels below the root: the
siblings of the leaf and of its ancestors there. -/
theorem key_states_safe (mode : Mode) :
    (∀ origin : Origin, (origin.startGuarded mode).Answers (origin.start mode).value) ∧
    (∀ key : Key mode, key.Arises → key.Safe) ∧
    (∀ key : SharedKey mode, ¬ (Key.shared key.release.2).Arises) ∧
    (∀ id seed, Tree.generateGuarded mode id seed = .ok (Tree.generate mode id seed) ∧
      Tree.generateByLevels mode id seed = .ok (Tree.generate mode id seed)) ∧
    ∀ leaf : Leaf mode, (siblingsUp mode.height leaf.node).length = mode.height ∧
      (siblingsUp mode.height leaf.node).map UInt32.toNat =
        (belowRoot (leaf.index.toNat + 2 ^ mode.height)).map siblingOf ∧
      ∀ r ∈ siblingsUp mode.height leaf.node, 1 < r.toNat ∧ r.toNat < 2 * 2 ^ mode.height := by
  refine ⟨Origin.answers_startGuarded mode, fun key arises => arises.sound.safe, ?_, ?_, ?_⟩
  · intro key arises
    exact key.not_safe_release arises.sound.safe
  · exact fun id seed => ⟨Tree.generateGuarded_eq id seed, Tree.generateByLevels_eq id seed⟩
  · intro leaf
    have below := leaf.atDepth_node
    have numbers := toNat_siblingsUp below
    rw [leaf.toNat_node] at numbers
    refine ⟨?_, numbers, fun r => mem_siblingsUp below⟩
    rw [siblingsUp, List.length_map, List.length_range]

theorem key_states_safe_oneLeafLeft :
    let mode := ParameterSet.mode ⟨.n24, .h5⟩ ⟨.n24, .w8⟩
    let first : Key mode := .signing ⟨oneLeafLeft, none⟩
    let ops : List Operation := [.share, .sign [1] none, .signGeneric [2], .unshare, .publicKey]
    first.Arises ∧ first.Safe ∧ first.runGuarded ops = .ok (first.run ops).value ∧
      (first.perform .share).value.2.Safe := by
  intro mode first ops
  have registered : mode.Registered := ParameterSet.registered_modeWith _ _ _
  have started := Origin.start_encode registered (show oneLeafLeft.q ≤ mode.leaves by decide) false
  have arises : first.Arises := .start started
  have safe := (key_states_safe mode).2.1
  exact ⟨arises, safe first arises, (safe first arises).run ops, safe _ (arises.perform .share)⟩

end HashSig.ManyTime
