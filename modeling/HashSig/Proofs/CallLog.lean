import HashSig.Proofs.History

/-! What one call logs.

A call says what it means for the counter and then whether it builds the tree, in this
order (`Key.events_moment`). It builds a tree only if there is none and it cannot do
without, which also says whether there is one afterwards (`Key.tree_moment`). A call
that fails logs at most that no leaf is left (`Key.events_of_isError`).
-/

set_option autoImplicit false

namespace HashSig.ManyTime

variable {mode : Mode}

/-! ## One call -/

/-- What a call to sign logs: what it means for the counter, and then whether it builds
the tree. A call that does not ask in the right form logs nothing. -/
def Mode.signLog (mode : Mode) (asked present : Bool) : Option (Signature mode) → List Event
  | some s =>
    (if s.leaf.index + 1 = mode.leaves then [.nowExhausted mode.typecode] else []) ++
      if present then [] else [.buildingTree mode.height mode.typecode]
  | none => if asked then [.refusedExhausted mode.typecode] else []

@[simp] theorem Mode.isOk_readRandomizer_none (mode : Mode) : (mode.readRandomizer none).isOk = true := rfl

@[simp] theorem Mode.isOk_readRandomizer_bytes (mode : Mode) (c : Octets mode.n) :
    (mode.readRandomizer (some c.bytes)).isOk = true := by
  have read : mode.readRandomizer (some c.bytes) = .ok (some c) := readRandomizer_eq_ok_iff.2 rfl
  rw [read]
  rfl

theorem PrivateKey.isExhausted_next_iff {key : PrivateKey mode} (unused : key.q < mode.leaves) :
    key.next.isExhausted = true ↔ key.q + 1 = mode.leaves := by
  have below : key.q + 1 ≤ mode.leaves := PrivateKey.next_le unused
  rw [isExhausted, decide_eq_true_iff]
  exact ⟨fun above => UInt32.le_antisymm below above, fun last => UInt32.le_of_eq last.symm⟩

namespace SigningKey

variable (key : SigningKey mode)

theorem events_withTree : key.withTree.events =
    if key.tree.isSome then [] else [.buildingTree mode.height mode.typecode] := by
  obtain ⟨lasting, _ | tree⟩ := key <;> rfl

theorem tree_withTree : key.withTree.value.2.tree.isSome = true := by
  obtain ⟨lasting, _ | tree⟩ := key <;> rfl

theorem events_sign (msg : Bytes) (randomizer : Option Bytes) :
    (key.sign msg randomizer).events = mode.signLog (mode.readRandomizer randomizer).isOk
      key.tree.isSome (key.sign msg randomizer).value.1.toOption := by
  cases read : mode.readRandomizer randomizer with
  | error e =>
    simp only [sign, read]
    rfl
  | ok c =>
    by_cases unused : key.q < mode.leaves
    · simp only [sign, read, reserve, dif_pos unused, Logged.value_bind, Logged.events_bind,
        Logged.value_pure, Logged.events_pure, Logged.events_emitIf, List.append_nil, events_withTree]
      rw [← PrivateKey.next]
      simp only [PrivateKey.isExhausted_next_iff unused]
      rfl
    · simp only [sign, read, reserve, dif_neg unused]
      rfl

theorem tree_sign (msg : Bytes) (randomizer : Option Bytes) :
    (key.sign msg randomizer).value.2.tree.isSome =
      (key.tree.isSome || (key.sign msg randomizer).value.1.toOption.isSome) := by
  cases read : mode.readRandomizer randomizer with
  | error e =>
    simp only [sign, read]
    exact (Bool.or_false _).symm
  | ok c =>
    by_cases unused : key.q < mode.leaves
    · simp only [sign, read, reserve, dif_pos unused, Logged.value_bind, Logged.value_pure, tree_withTree]
      exact (Bool.or_true _).symm
    · simp only [sign, read, reserve, dif_neg unused]
      exact (Bool.or_false _).symm

end SigningKey

theorem SharedKey.events_sign (key : SharedKey mode) (msg : Bytes) (randomizer : Option Bytes) :
    (key.sign msg randomizer).events = mode.signLog (mode.readRandomizer randomizer).isOk true
      (key.sign msg randomizer).value.1.toOption := by
  cases read : mode.readRandomizer randomizer with
  | error e =>
    simp only [sign, read]
    rfl
  | ok c =>
    by_cases unused : key.q < mode.leaves
    · simp only [sign, read, reserve, dif_pos unused, Logged.value_bind, Logged.events_bind,
        Logged.value_pure, Logged.events_pure, Logged.events_emitIf, List.append_nil, decide_eq_true_iff]
      exact (List.append_nil _).symm
    · simp only [sign, read, reserve, dif_neg unused]
      rfl

/-! ## One moment -/

/-- The operation asks the key for a signature, and not in a form that is refused. -/
def Key.asked : Key mode → Operation → Bool
  | _, .sign _ randomizer => (mode.readRandomizer randomizer).isOk
  | _, .signGeneric _ => true
  | .signing _, .signRandomized source _ => (source mode.n).isSome
  | _, _ => false

theorem Key.asked_iff {key : Key mode} {op : Operation} :
    key.asked op = true ↔ ∃ msg c, key.Requests op msg c := by
  cases op with
  | sign msg randomizer =>
    simp only [requests_sign_iff, exists_and_left, exists_eq_left, asked]
    cases mode.readRandomizer randomizer with
    | ok c => exact iff_of_true rfl ⟨c, rfl⟩
    | error e => exact iff_of_false nofun nofun
  | signGeneric msg => exact iff_of_true (by cases key <;> rfl) ⟨msg, none, .signGeneric⟩
  | signRandomized source msg =>
    cases key with
    | signing key =>
      simp only [asked, Option.isSome_iff_exists]
      constructor
      · rintro ⟨c, drawn⟩
        exact ⟨msg, some c, .signRandomized drawn⟩
      · rintro ⟨_, _, request⟩
        cases request with
        | signRandomized drawn => exact ⟨_, drawn⟩
    | shared key => exact iff_of_false nofun nofun
  | precompute | publicKey | save | display | share | unshare =>
    exact iff_of_false (by cases key <;> nofun) nofun

namespace Moment

def takesLastLeaf (m : Moment mode) : Bool :=
  m.answer.signature?.any fun s => s.leaf.index + 1 = mode.leaves

/-- The call asks for a signature in the right form and gets none. -/
def refusedAsExhausted (m : Moment mode) : Bool := m.before.asked m.op && m.answer.signature?.isNone

/-- The call cannot do without the tree. -/
def needsTree (m : Moment mode) : Bool :=
  match m.op with
  | .precompute | .publicKey | .share => true
  | _ => m.answer.signature?.isSome

def log (m : Moment mode) (present : Bool) : List Event :=
  (if m.takesLastLeaf then [.nowExhausted mode.typecode] else []) ++
    (if m.refusedAsExhausted then [.refusedExhausted mode.typecode] else []) ++
    if m.needsTree && !present then [.buildingTree mode.height mode.typecode] else []

end Moment

@[simp] theorem Answer.signature?_ofSign (signed : Except Error (Signature mode)) :
    (ofSign signed).signature? = signed.toOption := by
  cases signed <;> rfl

@[simp] theorem Answer.signature?_ofGeneric (signed : Except Error (Signature mode)) :
    (ofGeneric (withhold signed)).signature? = signed.toOption := by
  cases signed <;> rfl

theorem Moment.log_of_sign {m : Moment mode} {asked present : Bool}
    (needs : m.needsTree = m.answer.signature?.isSome) (same : m.before.asked m.op = asked) :
    m.log present = mode.signLog asked present m.answer.signature? := by
  cases signed : m.answer.signature? with
  | none =>
    simp [log, takesLastLeaf, refusedAsExhausted, signed, needs, same, Mode.signLog]
  | some s =>
    cases present <;> simp [log, takesLastLeaf, refusedAsExhausted, signed, needs, Mode.signLog]

namespace Key

theorem events_moment (key : Key mode) (op : Operation) :
    (key.moment op).events = (key.moment op).log key.tree?.isSome := by
  -- The ways to sign log what the one call to sign does that they make, if they make it.
  cases key with
  | signing key =>
    cases op with
    | sign msg randomizer =>
      rw [Moment.log_of_sign rfl rfl]
      simp [moment, perform, performSigning, key.events_sign, asked, tree?]
    | signGeneric msg =>
      rw [Moment.log_of_sign rfl rfl]
      simp [moment, perform, performSigning, SigningKey.signGeneric, key.events_sign, asked, tree?]
    | signRandomized source msg =>
      rw [Moment.log_of_sign rfl rfl]
      simp only [moment, perform, performSigning, SigningKey.signRandomized, asked]
      cases source mode.n with
      | none => rfl
      | some c =>
        simp [key.events_sign, tree?]
    | precompute | publicKey | share => obtain ⟨lasting, _ | tree⟩ := key <;> rfl
    | save | display | unshare => rfl
  | shared key =>
    cases op with
    | sign msg randomizer =>
      rw [Moment.log_of_sign rfl rfl]
      simp [moment, perform, performShared, key.events_sign, asked, tree?]
    | signGeneric msg =>
      rw [Moment.log_of_sign rfl rfl]
      simp [moment, perform, performShared, SharedKey.signGeneric, key.events_sign, asked, tree?]
    | signRandomized | precompute | publicKey | save | display | share | unshare => rfl

theorem tree_moment (key : Key mode) (op : Operation) :
    (key.moment op).after.tree?.isSome = (key.tree?.isSome || (key.moment op).needsTree) := by
  cases key with
  | signing key =>
    cases op with
    | sign msg randomizer =>
      have kept := key.tree_sign msg randomizer
      rw [← Answer.signature?_ofSign] at kept
      exact kept
    | signGeneric msg =>
      have kept := key.tree_sign msg none
      rw [← Answer.signature?_ofGeneric] at kept
      exact kept
    | signRandomized source msg =>
      simp only [moment, perform, performSigning, SigningKey.signRandomized]
      cases source mode.n with
      | none => exact (Bool.or_false _).symm
      | some c =>
        have kept := key.tree_sign msg (some c.bytes)
        rw [← Answer.signature?_ofGeneric] at kept
        exact kept
    | precompute | publicKey | share => obtain ⟨lasting, _ | tree⟩ := key <;> rfl
    | save | display | unshare => exact (Bool.or_false _).symm
  | shared key => cases op <;> rfl

end Key

/-! ## Calls that fail -/

namespace Key

variable {key : Key mode}

theorem needsTree_of_isError {op : Operation} (error : (key.moment op).answer.IsError) :
    (key.moment op).needsTree = false := by
  have silent := error.signature?
  cases op with
  | precompute | publicKey | share => cases key <;> exact error.elim
  | _ =>
    rw [Moment.needsTree, silent]
    rfl

/-- A call that fails logs at most that it was refused. -/
theorem events_of_isError {op : Operation} (error : (key.moment op).answer.IsError) :
    (key.moment op).events = if key.asked op then [.refusedExhausted mode.typecode] else [] := by
  have silent := error.signature?
  rw [events_moment, Moment.log, needsTree_of_isError error, Moment.takesLastLeaf,
    Moment.refusedAsExhausted, silent]
  change [] ++ (if (key.asked op && true) = true then _ else _) ++ [] = _
  rw [Bool.and_true, List.nil_append, List.append_nil]

theorem Sound.refusedAsExhausted_iff (sound : key.Sound) (op : Operation) :
    (key.moment op).refusedAsExhausted = true ↔
      key.asked op = true ∧ (key.moment op).answer = op.exhausted := by
  rw [Moment.refusedAsExhausted, Bool.and_eq_true]
  refine and_congr_right fun asked => ?_
  obtain ⟨msg, c, request⟩ := asked_iff.1 asked
  have outcome := sound.perform_outcome op
  constructor
  · intro silent
    change (key.perform op).value.1.signature?.isNone = true at silent
    change (key.perform op).value.1 = op.exhausted
    generalize (key.perform op).value.1 = answer at *
    generalize (key.perform op).value.2 = after at *
    cases outcome with
    | signed => cases silent
    | exhausted => rfl
    | refused noRequest | idle noRequest => exact absurd request (noRequest msg c)
  · intro refused
    rw [refused, op.isError_exhausted.signature?]
    rfl

end Key

theorem Mode.readRandomizer_ne_keyExhausted (randomizer : Option Bytes) :
    mode.readRandomizer randomizer ≠ .error .keyExhausted := by
  unfold readRandomizer
  split
  · nofun
  · split <;> nofun

theorem Key.Sound.refusedAsExhausted_sign_iff {key : Key mode} (sound : key.Sound) (msg : Bytes)
    (randomizer : Option Bytes) : (key.moment (.sign msg randomizer)).refusedAsExhausted = true ↔
      (key.moment (.sign msg randomizer)).answer = .failed .keyExhausted := by
  rw [sound.refusedAsExhausted_iff]
  refine and_iff_right_of_imp fun failed => ?_
  cases read : mode.readRandomizer randomizer with
  | ok c =>
    rw [asked, read]
    rfl
  | error e =>
    rw [moment, perform_sign, sign_of_refused read] at failed
    cases failed
    exact absurd read (mode.readRandomizer_ne_keyExhausted randomizer)

end HashSig.ManyTime
