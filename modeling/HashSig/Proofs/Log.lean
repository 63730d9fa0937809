import HashSig.Proofs.ThreadLog

/-! What a run logs.

The tree is built with the key, or else by the first call that needs it, and never
again. The last leaf is reported once, by the call that hands it out, and each call
that is refused for want of a leaf is reported once. So it is when threads share the key
(`log_truthful`).
-/

set_option autoImplicit false

namespace HashSig.ManyTime

variable {mode : Mode}

/-! ## Runs -/

namespace Moment

variable (m : Moment mode) (present : Bool)

theorem count_buildingTree : (m.log present).count (.buildingTree mode.height mode.typecode) =
    if m.needsTree && !present then 1 else 0 := by
  rw [log, List.count_append, List.count_append]
  split_ifs <;> simp

theorem count_nowExhausted : (m.log present).count (.nowExhausted mode.typecode) =
    if m.takesLastLeaf then 1 else 0 := by
  rw [log, List.count_append, List.count_append]
  split_ifs <;> simp

theorem count_refusedExhausted : (m.log present).count (.refusedExhausted mode.typecode) =
    if m.refusedAsExhausted then 1 else 0 := by
  rw [log, List.count_append, List.count_append]
  split_ifs <;> simp

end Moment

namespace Key

variable {key : Key mode} {ops : List Operation} {m : Moment mode}

-- Whether the tree is there at some moment is known from the moments before it.
theorem events_eq_log {earlier later : List (Moment mode)}
    (split : key.moments ops = earlier ++ m :: later) :
    m.events = m.log (key.tree?.isSome || earlier.any Moment.needsTree) := by
  induction earlier generalizing key ops with
  | nil =>
    cases ops with
    | nil => cases split
    | cons op ops =>
      obtain ⟨rfl, -⟩ := List.cons.inj split
      rw [events_moment, List.any_nil, Bool.or_false]
  | cons first earlier ih =>
    cases ops with
    | nil => cases split
    | cons op ops =>
      obtain ⟨rfl, rest⟩ := List.cons.inj split
      rw [ih rest, tree_moment, List.any_cons, Bool.or_assoc]

theorem count_buildingTree (key : Key mode) (ops : List Operation) :
    ((key.moments ops).flatMap Moment.events).count (.buildingTree mode.height mode.typecode) =
      if !key.tree?.isSome && (key.moments ops).any Moment.needsTree then 1 else 0 := by
  induction ops generalizing key with
  | nil => simp [moments]
  | cons op ops ih =>
    rw [moments, List.flatMap_cons, List.count_append, events_moment, Moment.count_buildingTree, ih,
      tree_moment, List.any_cons]
    cases key.tree?.isSome <;> cases (key.moment op).needsTree <;> simp

theorem count_refusedExhausted (key : Key mode) (ops : List Operation) :
    ((key.moments ops).flatMap Moment.events).count (.refusedExhausted mode.typecode) =
      (key.moments ops).countP Moment.refusedAsExhausted := by
  induction ops generalizing key with
  | nil => rfl
  | cons op ops ih =>
    rw [moments, List.flatMap_cons, List.count_append, events_moment, Moment.count_refusedExhausted, ih,
      List.countP_cons, Nat.add_comm]

-- The last leaf is handed out when the counter comes to the number of leaves.
theorem Sound.takesLastLeaf_iff (sound : key.Sound) (op : Operation) :
    (key.moment op).takesLastLeaf = true ↔
      key.privateKey.q < mode.leaves ∧ (key.moment op).after.privateKey.q = mode.leaves := by
  have outcome := sound.perform_outcome op
  rw [Moment.takesLastLeaf, moment]
  generalize (key.perform op).value.1 = answer at *
  generalize (key.perform op).value.2 = after at *
  have apart : ¬ (key.privateKey.q < mode.leaves ∧ key.privateKey.q = mode.leaves) :=
    fun both => UInt32.ne_of_lt both.1 both.2
  cases outcome with
  | signed _ unused =>
    simp only [Answer.signature?, Option.any_some, decide_eq_true_iff, privateKey_advance]
    exact (and_iff_right unused).symm
  | exhausted _ used =>
    simp only [op.isError_exhausted.signature?]
    exact iff_of_false Bool.false_ne_true apart
  | refused _ error =>
    simp only [error.signature?]
    exact iff_of_false Bool.false_ne_true apart
  | idle _ silent _ same =>
    simp only [silent, same]
    exact iff_of_false Bool.false_ne_true apart

-- That happens once, since the counter only moves forward.
theorem Sound.count_nowExhausted (sound : key.Sound) (ops : List Operation) :
    ((key.moments ops).flatMap Moment.events).count (.nowExhausted mode.typecode) =
      if key.privateKey.q < mode.leaves ∧ (key.run ops).value.2.privateKey.q = mode.leaves then 1 else 0 := by
  induction ops generalizing key with
  | nil =>
    simp only [moments, List.flatMap_nil, List.count_nil]
    exact (if_neg fun ⟨below, same⟩ => UInt32.ne_of_lt below same).symm
  | cons op ops ih =>
    have first : key.Counted [(key.moment op).answer] (key.moment op).after :=
      (sound.perform_outcome op).counted sound
    have rest := first.sound.run_counted ops
    have last : (key.run (op :: ops)).value.2 = ((key.moment op).after.run ops).value.2 := rfl
    have forward := first.counter
    have later := rest.counter
    have bound := UInt32.le_iff_toNat_le.1 rest.sound.inRange
    rw [moments, List.flatMap_cons, List.count_append, events_moment, Moment.count_nowExhausted,
      ih first.sound]
    simp only [sound.takesLastLeaf_iff, last, UInt32.lt_iff_toNat_lt, ← UInt32.toNat_inj]
    split_ifs <;> omega

end Key

/-! ## Keys at their beginning -/

namespace Origin

def eager : Origin → Bool
  | .bytes _ false => false
  | _ => true

/-- What is logged when a key with counter `q` begins. -/
def log (mode : Mode) (q : UInt32) : Origin → List Event
  | .seed _ _ => [.buildingTree mode.height mode.typecode]
  | .random _ =>
    [.generatingKey mode.typecode mode.oneTime.typecode, .buildingTree mode.height mode.typecode]
  | .bytes _ true => [.loadedKey q mode.typecode, .buildingTree mode.height mode.typecode]
  | .bytes _ false => [.loadedKeyWithoutTree q mode.typecode]

variable {origin : Origin} {first : SigningKey mode}

theorem events_start (started : (origin.start mode).value = .ok first) :
    (origin.start mode).events = origin.log mode first.q ∧ first.tree.isSome = origin.eager := by
  match origin with
  | .seed id secret =>
    simp only [start, SigningKey.ofSeed] at started ⊢
    split at started
    · cases started
    · cases started
      exact ⟨rfl, rfl⟩
  | .random source =>
    cases started
    exact ⟨rfl, rfl⟩
  | .bytes b true =>
    simp only [start, SigningKey.load] at started ⊢
    split at started
    · cases started
    · cases started
      exact ⟨rfl, rfl⟩
  | .bytes b false =>
    simp only [start, SigningKey.loadWithoutTree] at started ⊢
    split at started
    · cases started
    · cases started
      exact ⟨rfl, rfl⟩

theorem count_buildingTree (origin : Origin) (mode : Mode) (q : UInt32) :
    (origin.log mode q).count (.buildingTree mode.height mode.typecode) = if origin.eager then 1 else 0 := by
  match origin with
  | .seed _ _ | .random _ | .bytes _ true | .bytes _ false => simp [log, eager]

theorem not_mem_log (origin : Origin) (mode : Mode) (q typecode : UInt32) :
    .nowExhausted typecode ∉ origin.log mode q ∧ .refusedExhausted typecode ∉ origin.log mode q := by
  match origin with
  | .seed _ _ | .random _ | .bytes _ true | .bytes _ false => simp [log]

end Origin

/-! ## Main result -/

/-- The log of a key's beginning and of a run of operations on it tells when the tree was
built, when the last leaf was handed out, and which calls were refused because no leaf
was left. -/
structure Truthful (origin : Origin) (first : SigningKey mode) (ops : List Operation) : Prop where
  answers : ((Key.signing first).run ops).value.1 = ((Key.signing first).moments ops).map Moment.answer
  events : ((Key.signing first).run ops).events = ((Key.signing first).moments ops).flatMap Moment.events
  creation : (origin.start mode).events = origin.log mode first.q
  /-- The tree is built with the key, or by the first call that needs it. -/
  calls : ∀ earlier m later, (Key.signing first).moments ops = earlier ++ m :: later →
    m.events = m.log (origin.eager || earlier.any Moment.needsTree)
  /-- A call that fails is refused because no leaf is left, or logs nothing. -/
  failing : ∀ m ∈ (Key.signing first).moments ops, m.answer.IsError →
    m.events = if m.before.asked m.op then [.refusedExhausted mode.typecode] else []
  refused : ∀ m ∈ (Key.signing first).moments ops, m.refusedAsExhausted = true ↔
    m.before.asked m.op = true ∧ m.answer = m.op.exhausted
  refusedSign : ∀ m ∈ (Key.signing first).moments ops, ∀ msg randomizer, m.op = .sign msg randomizer →
    (m.refusedAsExhausted = true ↔ m.answer = .failed .keyExhausted)
  builds : ((origin.start mode).events ++ ((Key.signing first).run ops).events).count
      (.buildingTree mode.height mode.typecode) =
    if origin.eager || ((Key.signing first).moments ops).any Moment.needsTree then 1 else 0
  exhaustion : ((origin.start mode).events ++ ((Key.signing first).run ops).events).count
      (.nowExhausted mode.typecode) =
    if first.q < mode.leaves ∧ ((Key.signing first).run ops).value.2.privateKey.q = mode.leaves then 1 else 0
  refusals : ((origin.start mode).events ++ ((Key.signing first).run ops).events).count
      (.refusedExhausted mode.typecode) =
    ((Key.signing first).moments ops).countP Moment.refusedAsExhausted
  /-- The same holds for threads that share the key when the run is over. -/
  threads : ∀ shared : SharedKey mode, ((Key.signing first).run ops).value.2 = .shared shared →
    ∀ (count : Nat) (calls : Fin count → List Call) (order : List (Fin count × Call))
      (log : Fin count → List Event) (last : System mode count),
      System.Heard (.start shared calls) order log last → last.Complete → System.Truthful shared log last

theorem log_truthful {origin : Origin} {first : SigningKey mode}
    (started : (origin.start mode).value = .ok first) (ops : List Operation) :
    Truthful origin first ops := by
  have sound : (Key.signing first).Sound := Origin.sound_start started
  obtain ⟨creation, present⟩ := Origin.events_start started
  have present : (Key.signing first).tree?.isSome = origin.eager := present
  refine {
    answers := Key.answers_run _ ops
    events := Key.events_run _ ops
    creation := creation
    calls := fun earlier m later split => ?_
    failing := fun m member error => ?_
    refused := fun m member => ?_
    refusedSign := fun m member msg randomizer same => ?_
    builds := ?_
    exhaustion := ?_
    refusals := ?_
    threads := fun shared reached count calls order log last heard complete => ?_ }
  · rw [← present]
    exact Key.events_eq_log split
  · obtain ⟨-, own⟩ := sound.of_mem_moments member
    rw [own] at error ⊢
    exact Key.events_of_isError error
  · obtain ⟨sound, own⟩ := sound.of_mem_moments member
    rw [own]
    exact sound.refusedAsExhausted_iff m.op
  · obtain ⟨sound, own⟩ := sound.of_mem_moments member
    rw [own, same]
    exact sound.refusedAsExhausted_sign_iff msg randomizer
  · rw [List.count_append, Key.events_run, Key.count_buildingTree, present, creation,
      Origin.count_buildingTree]
    cases origin.eager <;> simp
  · rw [List.count_append, Key.events_run, sound.count_nowExhausted, creation,
      List.count_eq_zero_of_not_mem (origin.not_mem_log mode first.q mode.typecode).1, Nat.zero_add]
    rfl
  · rw [List.count_append, Key.events_run, Key.count_refusedExhausted, creation,
      List.count_eq_zero_of_not_mem (origin.not_mem_log mode first.q mode.typecode).2, Nat.zero_add]
  · have counted := sound.run_counted ops
    rw [reached] at counted
    exact heard.truthful counted.sound complete

/-- A key with one leaf left that is read without its tree: the second call is refused
its randomizer, the third hands out the last leaf and builds the tree, the next is
refused, and so is the last one, of the shared key. -/
theorem log_truthful_oneLeafLeft :
    let first : SigningKey _ := ⟨oneLeafLeft, none⟩
    ((Origin.bytes oneLeafLeft.encode false).start _).value = .ok first ∧
      Truthful (.bytes oneLeafLeft.encode false) first
        [.display, .sign [1] (some [2]), .signGeneric [3], .sign [4] none, .share, .signGeneric [5]] := by
  have started := Origin.start_encode
    (ParameterSet.registered_modeWith ⟨.n24, .h5⟩ Sha256.digest ⟨.n24, .w8⟩)
    (show oneLeafLeft.q ≤ _ by decide) false
  exact ⟨started, log_truthful started _⟩

end HashSig.ManyTime
