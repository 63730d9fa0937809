import HashSig.Proofs.Outcome

/-! Leaves are used once each and in order.

The signatures that a run of operations makes have consecutive leaf numbers, from
the counter at its beginning up to the counter at its end (`Key.Counted`). No call
that fails changes anything, and once the leaves are used up nothing makes the
key sign again.
-/

set_option autoImplicit false

namespace HashSig.ManyTime

variable {mode : Mode}

def Answer.signatures (answers : List (Answer mode)) : List (Signature mode) :=
  answers.filterMap Answer.signature?

namespace Key

variable {key after : Key mode} {op : Operation} {answer : Answer mode}

/-- The answers account for the way from one key to another: the counter has moved
by the number of signatures, and these have the leaves that it passed. -/
structure Counted (key : Key mode) (answers : List (Answer mode)) (after : Key mode) : Prop where
  sound : after.Sound
  id_eq : after.privateKey.id = key.privateKey.id
  seed_eq : after.privateKey.seed = key.privateKey.seed
  counter : after.privateKey.q.toNat =
    key.privateKey.q.toNat + (Answer.signatures answers).length
  leaves : (Answer.signatures answers).map (fun s => s.leaf.index.toNat) =
    List.range' key.privateKey.q.toNat (Answer.signatures answers).length

theorem Counted.nil (sound : key.Sound) : key.Counted [] key := ⟨sound, rfl, rfl, rfl, rfl⟩

theorem Counted.trans {between : Key mode} {first rest : List (Answer mode)}
    (before : key.Counted first between) (later : between.Counted rest after) :
    key.Counted (first ++ rest) after := by
  have parts : Answer.signatures (first ++ rest) =
      Answer.signatures first ++ Answer.signatures rest := List.filterMap_append
  refine ⟨later.sound, later.id_eq.trans before.id_eq, later.seed_eq.trans before.seed_eq, ?_, ?_⟩
  · rw [later.counter, before.counter, parts, List.length_append, Nat.add_assoc]
  · rw [parts, List.map_append, before.leaves, later.leaves, before.counter, List.length_append,
      List.range'_append_1]

theorem Counted.of_silent (silent : answer.signature? = none)
    (same : after.privateKey = key.privateKey) (sound : after.Sound) :
    key.Counted [answer] after := by
  have none : Answer.signatures [answer] = [] := by simp [Answer.signatures, silent]
  refine ⟨sound, by rw [same], by rw [same], ?_, ?_⟩
  · rw [none, same]
    rfl
  · rw [none]
    rfl

theorem Outcome.counted (outcome : Outcome key op answer after) (sound : key.Sound) :
    key.Counted [answer] after := by
  cases outcome with
  | signed request unused =>
    refine ⟨sound.advance unused, ?_, ?_, ?_, rfl⟩
    · rw [privateKey_advance]
      rfl
    · rw [privateKey_advance]
      rfl
    · rw [privateKey_advance, PrivateKey.toNat_next unused]
      rfl
  | exhausted => exact .of_silent op.isError_exhausted.signature? rfl sound
  | refused _ error => exact .of_silent error.signature? rfl sound
  | idle _ silent _ same sound => exact .of_silent silent same sound

theorem Sound.run_counted (sound : key.Sound) (ops : List Operation) :
    key.Counted (key.run ops).value.1 (key.run ops).value.2 := by
  induction ops generalizing key with
  | nil => exact .nil sound
  | cons op ops ih =>
    have first := (sound.perform_outcome op).counted sound
    rw [run_cons]
    exact first.trans (ih first.sound)

/-! ## Exhaustion -/

-- As many requests are granted as there are leaves left.
theorem Sound.length_signatures_run (sound : key.Sound) {ops : List Operation}
    (requests : ∀ op ∈ ops, ∃ msg c, key.Requests op msg c) :
    (Answer.signatures (key.run ops).value.1).length =
      min ops.length (mode.leaves.toNat - key.privateKey.q.toNat) := by
  induction ops generalizing key with
  | nil => exact (Nat.zero_min _).symm
  | cons op ops ih =>
    obtain ⟨msg, c, request⟩ := requests op List.mem_cons_self
    have others : ∀ op ∈ ops, ∃ msg c, key.Requests op msg c :=
      fun op member => requests op (List.mem_cons_of_mem _ member)
    have first := sound.perform_outcome op
    rw [run_cons]
    -- The answer and the next key have to be variables before the cases are told apart.
    generalize (key.perform op).value.1 = answer at *
    generalize (key.perform op).value.2 = after at *
    cases first with
    | signed _ unused =>
      have rest := ih (sound.advance unused) fun op member =>
        (others op member).imp fun _ => .imp fun _ => Requests.advance
      have below := UInt32.lt_iff_toNat_lt.1 unused
      rw [privateKey_advance, PrivateKey.toNat_next unused] at rest
      simp only [Answer.signatures, List.filterMap_cons, Answer.signature?, List.length_cons] at rest ⊢
      omega
    | exhausted _ used =>
      have rest := ih sound others
      have above := Nat.le_of_not_lt fun less => used (UInt32.lt_iff_toNat_lt.2 less)
      simp only [Answer.signatures, List.filterMap_cons, op.isError_exhausted.signature?] at rest ⊢
      omega
    | refused noRequest | idle noRequest => exact absurd request (noRequest msg c)

-- A key that has no leaf left never signs again.
theorem Sound.run_of_exhausted (sound : key.Sound) (used : ¬ key.privateKey.q < mode.leaves)
    (ops : List Operation) :
    Answer.signatures (key.run ops).value.1 = [] ∧
      (key.run ops).value.2.privateKey = key.privateKey := by
  have counted := sound.run_counted ops
  have full := Nat.le_of_not_lt fun less => used (UInt32.lt_iff_toNat_lt.2 less)
  have bound := UInt32.le_iff_toNat_le.1 counted.sound.inRange
  have made := counted.counter
  -- The counter is at its bound, and every signature would move it.
  refine ⟨List.eq_nil_of_length_eq_zero (by omega), PrivateKey.ext ?_ counted.id_eq counted.seed_eq⟩
  exact UInt32.toNat_inj.1 (by omega)

/-- How a key answers whatever it is asked next. -/
structure Disciplined (key : Key mode) : Prop where
  /-- A request is granted exactly when a leaf is left. -/
  granted : ∀ op msg c, key.Requests op msg c →
    ((∃ s, (key.perform op).value.1 = .signature s) ↔ key.privateKey.q < mode.leaves)
  exhausted : ∀ op msg c, key.Requests op msg c → ¬ key.privateKey.q < mode.leaves →
    (key.perform op).value = (op.exhausted, key)
  /-- All leaves that are left can be had, and no more. -/
  total : ∀ ops, (∀ op ∈ ops, ∃ msg c, key.Requests op msg c) →
    (Answer.signatures (key.run ops).value.1).length =
      min ops.length (mode.leaves.toNat - key.privateKey.q.toNat)
  permanent : ¬ key.privateKey.q < mode.leaves → ∀ ops,
    Answer.signatures (key.run ops).value.1 = [] ∧
      (key.run ops).value.2.privateKey = key.privateKey
  /-- The length of a randomizer is looked at before the leaves are. -/
  wrongLength : ∀ msg randomizer, randomizer.length ≠ mode.n →
    (key.perform (.sign msg (some randomizer))).value =
      (.failed (.invalidRandomizerLength mode.n randomizer.length), key)
  sourceFailed : ∀ signing source msg, key = .signing signing → source mode.n = none →
    (key.perform (.signRandomized source msg)).value = (.refused .withheld, key)
  /-- A call that fails changes nothing, the tree included. -/
  unchanged : ∀ op, (key.perform op).value.1.IsError → (key.perform op).value.2 = key

theorem Sound.disciplined (sound : key.Sound) : key.Disciplined where
  granted op _ _ request := (sound.perform_outcome op).granted_iff request
  exhausted op _ _ request used := (sound.perform_outcome op).exhausted_eq request used
  total _ requests := sound.length_signatures_run requests
  permanent used := sound.run_of_exhausted used
  wrongLength msg randomizer wrong := by
    rw [perform_sign, sign_of_refused (Mode.readRandomizer_of_wrong wrong)]
    rfl
  sourceFailed signing source msg same failed := by
    subst same
    simp only [perform, performSigning, SigningKey.signRandomized, failed]
    rfl
  unchanged op error := (sound.perform_outcome op).unchanged error

end Key

/-- Whatever is done with a key, in whatever order, its signatures have the leaves
from its first counter on, one after the other, and the key that is left goes on
in the same way. Each state of a run is the end of a shorter one, so this holds
after every step. -/
theorem leaves_used_in_order {origin : Origin} {first : SigningKey mode}
    (started : (origin.start mode).value = .ok first) (ops : List Operation) :
    let answers := (Key.run (.signing first) ops).value.1
    let last := (Key.run (.signing first) ops).value.2
    let made := Answer.signatures answers
    made.map (fun s => s.leaf.index.toNat) = List.range' first.q.toNat made.length ∧
      last.privateKey.q.toNat = first.q.toNat + made.length ∧
      last.privateKey.q ≤ mode.leaves ∧
      last.privateKey.remaining.toNat = mode.leaves.toNat - last.privateKey.q.toNat ∧
      last.privateKey.id = first.id ∧
      last.privateKey.seed = first.seed ∧
      last.Disciplined := by
  have sound : (Key.signing first).Sound := Origin.sound_start started
  have counted := sound.run_counted ops
  have inRange := counted.sound.inRange
  exact ⟨counted.leaves, counted.counter, inRange, PrivateKey.toNat_remaining inRange, counted.id_eq,
    counted.seed_eq, counted.sound.disciplined⟩

def oneLeafLeft : PrivateKey (ParameterSet.mode ⟨.n24, .h5⟩ ⟨.n24, .w8⟩) :=
  ⟨31, Octets.zero 16, Octets.zero 24⟩

theorem leaves_used_in_order_oneLeafLeft :
    let ops : List Operation := [.sign [1] (some [2]), .share, .signGeneric [3], .unshare, .sign [4] none]
    let start : SigningKey _ := ⟨oneLeafLeft, none⟩
    let run := (Key.run (.signing start) ops).value
    let made := Answer.signatures run.1
    ((Origin.bytes oneLeafLeft.encode false).start _).value = .ok start ∧
      made.map (fun s => s.leaf.index.toNat) = List.range' 31 made.length ∧
      run.2.privateKey.q.toNat = 31 + made.length ∧
      run.2.Disciplined := by
  have started := Origin.start_encode
    (ParameterSet.registered_modeWith ⟨.n24, .h5⟩ Sha256.digest ⟨.n24, .w8⟩)
    (show oneLeafLeft.q ≤ _ by decide) false
  have used := leaves_used_in_order started
    [.sign [1] (some [2]), .share, .signGeneric [3], .unshare, .sign [4] none]
  exact ⟨started, used.1, used.2.1, used.2.2.2.2.2.2⟩

end HashSig.ManyTime
