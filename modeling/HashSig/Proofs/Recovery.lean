import HashSig.Proofs.Acceptance
import HashSig.Proofs.LeafUse

/-! Crashes reuse no leaf.

A key lives in memory and is saved now and then. A signature that it makes is held
back until the key has been saved once more, and only then released. In a crash the
key in memory and the signatures that are held are lost, and the saved bytes are read
again. So a leaf may be used again after a crash, but never one that a released
signature has (`Custody.Backed`): the saved counter has passed all of those.
-/

set_option autoImplicit false

namespace HashSig.ManyTime

variable {mode : Mode}

/-- A key in memory, the bytes that it was last saved as, and the signatures that it
has made. -/
structure Custody (mode : Mode) where
  key : Key mode
  stored : Bytes
  /-- Held back, and made after the key was last saved. -/
  fresh : List (Signature mode)
  /-- Held back, and made before the key was last saved. -/
  covered : List (Signature mode)
  released : List (Signature mode)

namespace Custody

inductive Step where
  | operate (op : Operation)
  /-- Let go of a signature that is covered by the saved bytes. -/
  | release (number : Nat)
  /-- Lose what is in memory and read the saved bytes, with the tree or without. -/
  | crash (withTree : Bool)

/-- What is kept of an answer: a signature is held back, and bytes are stored. -/
def receive (c : Custody mode) (answer : Answer mode) (after : Key mode) : Custody mode :=
  match answer with
  | .signature s => { c with key := after, fresh := c.fresh ++ [s] }
  | .bytes b => { c with key := after, stored := b, fresh := [], covered := c.covered ++ c.fresh }
  | _ => { c with key := after }

def operate (c : Custody mode) (op : Operation) : Custody mode :=
  c.receive (c.key.perform op).value.1 (c.key.perform op).value.2

def release (c : Custody mode) (number : Nat) : Custody mode :=
  match c.covered[number]? with
  | some s => { c with covered := c.covered.eraseIdx number, released := c.released ++ [s] }
  | none => c

def crash (c : Custody mode) (withTree : Bool) : Except Error (Custody mode) := do
  let key ← ((Origin.bytes c.stored withTree).start mode).value
  return ⟨.signing key, c.stored, [], [], c.released⟩

def step (c : Custody mode) : Step → Except Error (Custody mode)
  | .operate op => .ok (c.operate op)
  | .release number => .ok (c.release number)
  | .crash withTree => c.crash withTree

def run : Custody mode → List Step → Except Error (Custody mode)
  | c, [] => .ok c
  | c, step :: steps => do
    let c ← c.step step
    run c steps

def begin (key : Key mode) (stored : Bytes) : Custody mode := ⟨key, stored, [], [], []⟩

/-- The saved bytes are those of `kept`, a former state of the key in memory; its
counter has passed the released and the covered signatures, the counter in memory has
passed the fresh ones too, and no two of them have one leaf. -/
structure Backed (c : Custody mode) (kept : PrivateKey mode) : Prop where
  sound : c.key.Sound
  stored : c.stored = kept.encode
  id_eq : c.key.privateKey.id = kept.id
  seed_eq : c.key.privateKey.seed = kept.seed
  kept_le : kept.q ≤ c.key.privateKey.q
  passed : ∀ s ∈ c.released ++ c.covered, s.leaf.index < kept.q
  fresh : ∀ s ∈ c.fresh, s.leaf.index < c.key.privateKey.q
  distinct : ((c.released ++ c.covered ++ c.fresh).map (·.leaf.index)).Nodup

namespace Backed

variable {c : Custody mode} {kept : PrivateKey mode}

theorem inRange (backed : c.Backed kept) : kept.q ≤ mode.leaves :=
  UInt32.le_trans backed.kept_le backed.sound.inRange

-- No signature at all has reached the counter in memory.
theorem made (backed : c.Backed kept) :
    ∀ s ∈ c.released ++ c.covered ++ c.fresh, s.leaf.index < c.key.privateKey.q := by
  intro s member
  rcases List.mem_append.1 member with earlier | fresh
  · exact UInt32.lt_of_lt_of_le (backed.passed s earlier) backed.kept_le
  · exact backed.fresh s fresh

theorem begin {key : Key mode} (sound : key.Sound) :
    (Custody.begin key key.privateKey.encode).Backed key.privateKey :=
  ⟨sound, rfl, rfl, rfl, UInt32.le_refl _, nofun, nofun, .nil⟩

-- Nothing but the key changes, and the key only in form.
theorem idle (backed : c.Backed kept) {after : Key mode} (sound : after.Sound)
    (same : after.privateKey = c.key.privateKey) : { c with key := after }.Backed kept where
  sound := sound
  stored := backed.stored
  id_eq := same ▸ backed.id_eq
  seed_eq := same ▸ backed.seed_eq
  kept_le := same ▸ backed.kept_le
  passed := backed.passed
  fresh := same ▸ backed.fresh
  distinct := backed.distinct

theorem signed (backed : c.Backed kept) (unused : c.key.privateKey.q < mode.leaves) (msg : Bytes)
    (r : Option (Octets mode.n)) :
    (c.receive (.signature (c.key.privateKey.signNext unused msg r)) c.key.advance).Backed kept := by
  have moved : c.key.privateKey.q < c.key.advance.privateKey.q := by
    rw [Key.privateKey_advance, UInt32.lt_iff_toNat_lt, PrivateKey.toNat_next unused]
    exact Nat.lt_succ_self _
  refine ⟨backed.sound.advance unused, backed.stored, ?_, ?_, ?_, backed.passed, ?_, ?_⟩
  · exact (congrArg PrivateKey.id c.key.privateKey_advance).trans backed.id_eq
  · exact (congrArg PrivateKey.seed c.key.privateKey_advance).trans backed.seed_eq
  · exact UInt32.le_trans backed.kept_le (UInt32.le_of_lt moved)
  · intro s member
    rcases List.mem_append.1 member with before | new
    · exact UInt32.lt_trans (backed.fresh s before) moved
    · rw [List.mem_singleton.1 new]
      exact moved
  · -- All earlier leaves are below the counter, which is the new leaf.
    have new : ∀ index ∈ (c.released ++ c.covered ++ c.fresh).map (·.leaf.index),
        index ≠ c.key.privateKey.q := by
      intro index member
      obtain ⟨s, made, rfl⟩ := List.mem_map.1 member
      exact UInt32.ne_of_lt (backed.made s made)
    change ((c.released ++ c.covered ++ (c.fresh ++ [_])).map _).Nodup
    rw [← List.append_assoc, List.map_append, List.nodup_append]
    refine ⟨backed.distinct, List.pairwise_singleton _ _, ?_⟩
    intro index member other last
    rw [List.mem_singleton.1 last]
    exact new index member

theorem saved (backed : c.Backed kept) {after : Key mode} (sound : after.Sound)
    (same : after.privateKey = c.key.privateKey) :
    (c.receive (.bytes c.key.privateKey.encode) after).Backed c.key.privateKey := by
  have order : c.released ++ (c.covered ++ c.fresh) ++ [] = c.released ++ c.covered ++ c.fresh := by
    rw [List.append_nil, List.append_assoc]
  refine ⟨sound, rfl, congrArg PrivateKey.id same, congrArg PrivateKey.seed same, ?_, ?_, nofun, ?_⟩
  · exact UInt32.le_of_eq (congrArg PrivateKey.q same).symm
  · intro s member
    exact backed.made s (by rw [← order, List.append_nil]; exact member)
  · exact (congrArg (fun made => (made.map (·.leaf.index)).Nodup) order).mpr backed.distinct

theorem operate (backed : c.Backed kept) (op : Operation) :
    ∃ kept', (c.operate op).Backed kept' ∧ kept'.id = kept.id ∧ kept'.seed = kept.seed := by
  have outcome := backed.sound.perform_outcome op
  have own : ∀ b, (c.key.perform op).value.1 = .bytes b → b = c.key.privateKey.encode :=
    fun b => Key.bytes_of_perform
  rw [Custody.operate]
  generalize (c.key.perform op).value.1 = answer at *
  generalize (c.key.perform op).value.2 = after at *
  cases outcome with
  | signed _ unused => exact ⟨kept, backed.signed unused _ _, rfl, rfl⟩
  | exhausted => exact ⟨kept, by cases op <;> exact backed, rfl, rfl⟩
  | refused _ error =>
    refine ⟨kept, ?_, rfl, rfl⟩
    cases answer with
    | failed | refused => exact backed
    | _ => exact error.elim
  | idle _ silent _ same sound =>
    cases answer with
    | signature => cases silent
    | bytes b =>
      rw [own b rfl]
      exact ⟨c.key.privateKey, backed.saved sound same, backed.id_eq, backed.seed_eq⟩
    | _ => exact ⟨kept, backed.idle sound same, rfl, rfl⟩

theorem release (backed : c.Backed kept) (number : Nat) : (c.release number).Backed kept := by
  rw [Custody.release]
  split
  · next s found =>
    obtain ⟨inside, rfl⟩ := List.getElem?_eq_some_iff.1 found
    -- The signature only changes places.
    have whole : c.covered.take number ++ c.covered[number] :: c.covered.drop (number + 1) =
        c.covered := by rw [List.getElem_cons_drop, List.take_append_drop]
    have moved : (c.released ++ [c.covered[number]] ++ c.covered.eraseIdx number).Perm
        (c.released ++ c.covered) := by
      rw [List.eraseIdx_eq_take_drop_succ, List.append_assoc]
      exact (List.perm_middle.symm.trans (.of_eq whole)).append_left c.released
    refine ⟨backed.sound, backed.stored, backed.id_eq, backed.seed_eq, backed.kept_le, ?_,
      backed.fresh, ?_⟩
    · intro s member
      exact backed.passed s (moved.mem_iff.1 member)
    · exact (((moved.append_right c.fresh).map _).nodup_iff).2 backed.distinct
  · exact backed

/-- A crash leads back to the key that was saved. -/
theorem crash (backed : c.Backed kept) (registered : mode.Registered) (withTree : Bool) :
    ∃ after, c.crash withTree = .ok after ∧ after.Backed kept := by
  have read := Origin.start_encode registered backed.inRange withTree
  rw [Custody.crash, backed.stored, read]
  refine ⟨_, rfl, Origin.sound_start read, rfl, rfl, rfl, UInt32.le_refl _, ?_, nofun, ?_⟩
  · intro s member
    rw [List.append_nil] at member
    exact backed.passed s (List.mem_append_left _ member)
  · have kept : c.released.Sublist (c.released ++ c.covered ++ c.fresh) := by
      rw [List.append_assoc]
      exact List.sublist_append_left _ _
    rw [List.append_nil, List.append_nil]
    exact backed.distinct.sublist (kept.map _)

theorem step (backed : c.Backed kept) (registered : mode.Registered) (step : Step) :
    ∃ after kept', c.step step = .ok after ∧ after.Backed kept' ∧ kept'.id = kept.id ∧
      kept'.seed = kept.seed := by
  cases step with
  | operate op =>
    obtain ⟨kept', operated⟩ := backed.operate op
    exact ⟨_, kept', rfl, operated⟩
  | release number => exact ⟨_, kept, rfl, backed.release number, rfl, rfl⟩
  | crash withTree =>
    obtain ⟨after, crashed, backed⟩ := backed.crash registered withTree
    exact ⟨after, kept, crashed, backed, rfl, rfl⟩

theorem run (backed : c.Backed kept) (registered : mode.Registered) (steps : List Step) :
    ∃ last kept', c.run steps = .ok last ∧ last.Backed kept' ∧ kept'.id = kept.id ∧
      kept'.seed = kept.seed := by
  induction steps generalizing c kept with
  | nil => exact ⟨c, kept, rfl, backed, rfl, rfl⟩
  | cons step steps ih =>
    obtain ⟨after, between, stepped, backed, id, seed⟩ := backed.step registered step
    obtain ⟨last, kept', ran, ends, idLast, seedLast⟩ := ih backed
    refine ⟨last, kept', ?_, ends, idLast.trans id, seedLast.trans seed⟩
    rw [Custody.run, stepped]
    exact ran

-- A signature can be released as soon as the key has been saved after it.
theorem run_release (backed : c.Backed kept) {key : SigningKey mode} (held : c.key = .signing key)
    {op : Operation} {msg : Bytes} {r : Option (Octets mode.n)} (request : c.key.Requests op msg r)
    (unused : c.key.privateKey.q < mode.leaves) :
    ∃ s last, c.run [.operate op, .operate .save, .release (c.covered.length + c.fresh.length)] =
        .ok last ∧ last.released = c.released ++ [s] ∧ s.leaf.index = c.key.privateKey.q := by
  obtain ⟨s, leaf, answer, after⟩ := (backed.sound.perform_outcome op).granted_eq request unused
  have signed : c.operate op =
      { c with key := .signing key.advance, fresh := c.fresh ++ [s] } := by
    rw [Custody.operate, answer, after, held]
    rfl
  have found : (c.covered ++ (c.fresh ++ [s]))[c.covered.length + c.fresh.length]? = some s := by
    rw [← List.append_assoc, ← List.length_append, List.getElem?_concat_length]
  have released : (((c.operate op).operate .save).release (c.covered.length + c.fresh.length)).released =
      c.released ++ [s] := by
    rw [signed, Custody.release]
    split
    · next other again =>
      cases found.symm.trans again
      rfl
    · next none =>
      cases found.symm.trans none
  exact ⟨s, _, rfl, released, leaf⟩

end Backed

end Custody

/-- Whenever the bytes of a key have been saved, and whatever then happens to it, with
crashes at any time and calls that fail, as long as a signature is released only once
the key has been saved after it: what is saved can be read, the key that is read has
its counter beyond the leaf of every released signature, and no two of these have one
leaf. And the next leaf, if there is one, can be used for a signature that is released. -/
theorem crashes_reuse_no_leaf (registered : mode.Registered) {origin : Origin}
    {first : SigningKey mode} (started : (origin.start mode).value = .ok first)
    (ops : List Operation) {stored : Bytes}
    (saved : ((Key.run (.signing first) ops).value.2.perform .save).value.1 = .bytes stored)
    (steps : List Custody.Step) :
    ∃ last, (Custody.begin (Key.run (.signing first) ops).value.2 stored).run steps = .ok last ∧
      (∀ withTree, ∃ key, ((Origin.bytes last.stored withTree).start mode).value = .ok key ∧
        key.id = first.id ∧ key.seed = first.seed ∧
        ∀ s ∈ last.released, s.leaf.index < key.q) ∧
      (last.released.map (·.leaf.index)).Nodup ∧
      ∀ key op msg r, last.key = .signing key → last.key.Requests op msg r → key.q < mode.leaves →
        ∃ s next, last.run [.operate op, .operate .save,
            .release (last.covered.length + last.fresh.length)] = .ok next ∧
          next.released = last.released ++ [s] ∧ s.leaf.index = key.q := by
  have sound : (Key.signing first).Sound := Origin.sound_start started
  have counted := sound.run_counted ops
  obtain rfl := Key.bytes_of_perform saved
  obtain ⟨last, kept, ran, backed, id, seed⟩ :=
    (Custody.Backed.begin counted.sound).run registered steps
  refine ⟨last, ran, ?_, ?_, ?_⟩
  · intro withTree
    have read := Origin.start_encode registered backed.inRange withTree
    rw [← backed.stored] at read
    refine ⟨_, read, id.trans counted.id_eq, seed.trans counted.seed_eq, ?_⟩
    intro s member
    exact backed.passed s (List.mem_append_left _ member)
  · have distinct := backed.distinct
    rw [List.append_assoc, List.map_append] at distinct
    exact (List.nodup_append.1 distinct).1
  · intro key op msg r held request unused
    have inMemory : last.key.privateKey.q = key.q := by rw [held]; rfl
    rw [← inMemory] at unused ⊢
    exact backed.run_release held request unused

/-- The first signature is lost in a crash, and its leaf is used again. -/
theorem crashes_reuse_no_leaf_twoLeavesLeft :
    let start : SigningKey (ParameterSet.mode ⟨.n32, .h5⟩ ⟨.n32, .w4⟩) := ⟨twoLeavesLeft, none⟩
    let sign : Custody.Step := .operate (.signGeneric [1])
    let steps : List Custody.Step := [sign, .crash true, sign, .operate .save, .release 0, sign,
      .crash false, sign, .operate .save, .release 0, sign]
    let key := (Key.run (.signing start) []).value.2
    Mode.Registered (ParameterSet.mode ⟨.n32, .h5⟩ ⟨.n32, .w4⟩) ∧
      ((Origin.bytes twoLeavesLeft.encode false).start _).value = .ok start ∧
      (key.perform .save).value.1 = .bytes twoLeavesLeft.encode ∧
      ∃ last, (Custody.begin key twoLeavesLeft.encode).run steps = .ok last ∧
        last.released.map (fun s => s.leaf.index) = [30, 31] ∧
        (last.released.map fun s => s.leaf.index).Nodup := by
  intro start sign steps key
  have registered := ParameterSet.registered_modeWith ⟨.n32, .h5⟩ Sha256.digest ⟨.n32, .w4⟩
  have started : ((Origin.bytes twoLeavesLeft.encode false).start _).value = .ok start :=
    Origin.start_encode registered (by decide) false
  have saved : (key.perform .save).value.1 = .bytes twoLeavesLeft.encode := rfl
  obtain ⟨last, ran, -, distinct, -⟩ := crashes_reuse_no_leaf registered started [] saved steps
  have leaves : ((Custody.begin key twoLeavesLeft.encode).run steps).map
      (fun last => last.released.map fun s => s.leaf.index) = .ok [30, 31] := by
    decide +kernel
  have released := (congrArg (Except.map _) ran).symm.trans leaves
  exact ⟨registered, started, saved, last, ran, Except.ok.inj released, distinct⟩

end HashSig.ManyTime
