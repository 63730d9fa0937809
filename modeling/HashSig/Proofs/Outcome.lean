import HashSig.Proofs.Soundness

/-! What an operation does to a key.

On a sound key an operation does one of four things (`Key.Sound.perform_outcome`):
it signs with the next leaf and moves on, it finds the key exhausted, it is
refused, or it does not sign and at most builds the tree or changes the key's
form. What a run of operations does follows from that step by step.
-/

set_option autoImplicit false

namespace HashSig.ManyTime

variable {mode : Mode}

namespace Answer

def signature? : Answer mode → Option (Signature mode)
  | .signature s => some s
  | _ => none

def IsError : Answer mode → Prop
  | .failed _ | .refused _ => True
  | _ => False

end Answer

def Operation.exhausted : Operation → Answer mode
  | .sign _ _ => .failed .keyExhausted
  | _ => .refused .withheld

theorem Answer.ofSign_ne_bytes {b : Bytes} (signed : Except Error (Signature mode)) :
    ofSign signed ≠ .bytes b := by
  cases signed <;> nofun

theorem Answer.ofGeneric_ne_bytes {b : Bytes} (signed : Except SignatureError (Signature mode)) :
    ofGeneric signed ≠ .bytes b := by
  cases signed <;> nofun

theorem Answer.IsError.signature? {answer : Answer mode} (error : answer.IsError) :
    answer.signature? = none := by
  cases answer with
  | failed | refused => rfl
  | _ => cases error

theorem Operation.isError_exhausted (op : Operation) : (op.exhausted : Answer mode).IsError := by
  cases op <;> trivial

namespace Key

/-- The operation asks the key to sign `msg`, and a randomizer that it brings is
`c` and as long as a hash. -/
inductive Requests : Key mode → Operation → Bytes → Option (Octets mode.n) → Prop where
  | sign {key : Key mode} {msg : Bytes} {randomizer : Option Bytes} {c : Option (Octets mode.n)}
      (same : randomizer = c.map Octets.bytes) : Requests key (.sign msg randomizer) msg c
  | signGeneric {key : Key mode} {msg : Bytes} : Requests key (.signGeneric msg) msg none
  | signRandomized {key : SigningKey mode} {source : FallibleSource} {msg : Bytes}
      {c : Octets mode.n} (drawn : source mode.n = some c) :
      Requests (.signing key) (.signRandomized source msg) msg (some c)

def advance : Key mode → Key mode
  | .signing key => .signing key.advance
  | .shared key => .shared key.advance

/-- What an operation can do to a sound key. -/
inductive Outcome (key : Key mode) (op : Operation) : Answer mode → Key mode → Prop where
  | signed {msg : Bytes} {c : Option (Octets mode.n)} (request : key.Requests op msg c)
      (unused : key.privateKey.q < mode.leaves) :
      Outcome key op (.signature (key.privateKey.signNext unused msg c)) key.advance
  | exhausted {msg : Bytes} {c : Option (Octets mode.n)} (request : key.Requests op msg c)
      (used : ¬ key.privateKey.q < mode.leaves) : Outcome key op op.exhausted key
  | refused {answer : Answer mode} (noRequest : ∀ msg c, ¬ key.Requests op msg c)
      (error : answer.IsError) : Outcome key op answer key
  | idle {answer : Answer mode} {after : Key mode} (noRequest : ∀ msg c, ¬ key.Requests op msg c)
      (silent : answer.signature? = none) (noError : ¬ answer.IsError)
      (same : after.privateKey = key.privateKey) (sound : after.Sound) : Outcome key op answer after

end Key

theorem Mode.readRandomizer_eq_ok_iff {randomizer : Option Bytes} {c : Option (Octets mode.n)} :
    mode.readRandomizer randomizer = .ok c ↔ randomizer = c.map Octets.bytes := by
  constructor
  · intro read
    unfold Mode.readRandomizer at read
    split at read
    · cases read
      rfl
    · next whole =>
      split at read
      · next found =>
        cases read
        exact congrArg some (Octets.bytes_of_ofBytes? found).symm
      · cases read
  · rintro rfl
    cases c with
    | none => rfl
    | some c => simp only [readRandomizer, Option.map_some, Octets.ofBytes?_bytes]

theorem Mode.readRandomizer_of_wrong {randomizer : Bytes} (wrong : randomizer.length ≠ mode.n) :
    mode.readRandomizer (some randomizer) =
      .error (.invalidRandomizerLength mode.n randomizer.length) := by
  simp only [readRandomizer, Octets.ofBytes?_eq_none_iff.2 wrong]

namespace Key

variable {key : Key mode}

def sign (key : Key mode) (msg : Bytes) (randomizer : Option Bytes) :
    Except Error (Signature mode) × Key mode :=
  match key with
  | .signing key => ((key.sign msg randomizer).value.1, .signing (key.sign msg randomizer).value.2)
  | .shared key => ((key.sign msg randomizer).value.1, .shared (key.sign msg randomizer).value.2)

theorem sign_of_refused {msg : Bytes} {randomizer : Option Bytes} {e : Error}
    (read : mode.readRandomizer randomizer = .error e) :
    key.sign msg randomizer = (.error e, key) := by
  cases key with
  | signing key => rw [sign, SigningKey.value_sign_of_refused read]
  | shared key => rw [sign, SharedKey.value_sign_of_refused read]

theorem sign_of_exhausted {msg : Bytes} {randomizer : Option Bytes} {c : Option (Octets mode.n)}
    (read : mode.readRandomizer randomizer = .ok c) (used : ¬ key.privateKey.q < mode.leaves) :
    key.sign msg randomizer = (.error .keyExhausted, key) := by
  cases key with
  | signing key => rw [sign, SigningKey.value_sign_of_exhausted read used]
  | shared key => rw [sign, SharedKey.value_sign_of_exhausted read used]

theorem Sound.sign (sound : key.Sound) {msg : Bytes} {randomizer : Option Bytes}
    {c : Option (Octets mode.n)} (read : mode.readRandomizer randomizer = .ok c)
    (unused : key.privateKey.q < mode.leaves) :
    key.sign msg randomizer = (.ok (key.privateKey.signNext unused msg c), key.advance) := by
  cases key with
  | signing key => rw [Key.sign, SigningKey.Sound.value_sign sound read unused]; rfl
  | shared key => rw [Key.sign, SharedKey.Sound.value_sign sound read unused]; rfl

theorem perform_sign (msg : Bytes) (randomizer : Option Bytes) :
    (key.perform (.sign msg randomizer)).value =
      (.ofSign (key.sign msg randomizer).1, (key.sign msg randomizer).2) := by
  cases key <;> rfl

theorem perform_signGeneric (msg : Bytes) :
    (key.perform (.signGeneric msg)).value =
      (.ofGeneric (withhold (key.sign msg none).1), (key.sign msg none).2) := by
  cases key <;> rfl

theorem perform_signRandomized {key : SigningKey mode} {source : FallibleSource} {c : Octets mode.n}
    (drawn : source mode.n = some c) (msg : Bytes) :
    (perform (.signing key) (.signRandomized source msg)).value =
      (.ofGeneric (withhold (sign (.signing key) msg (some c.bytes)).1),
        (sign (.signing key) msg (some c.bytes)).2) := by
  simp only [perform, performSigning, SigningKey.signRandomized, drawn]
  rfl

-- The answer to a request is what signing gives, worded in the operation's way.
theorem Sound.outcome_sign (sound : key.Sound) {op : Operation} {msg : Bytes}
    {randomizer : Option Bytes} (reply : Except Error (Signature mode) → Answer mode)
    (requests : ∀ other c, key.Requests op other c ↔
      other = msg ∧ mode.readRandomizer randomizer = .ok c)
    (granted : ∀ s, reply (.ok s) = .signature s) (failed : ∀ e, (reply (.error e)).IsError)
    (exhausted : reply (.error .keyExhausted) = op.exhausted) :
    Outcome key op (reply (key.sign msg randomizer).1) (key.sign msg randomizer).2 := by
  cases read : mode.readRandomizer randomizer with
  | error e =>
    -- A refused randomizer makes no request, whether a leaf is left or not.
    rw [sign_of_refused read]
    refine .refused ?_ (failed e)
    intro other c request
    have accepted := ((requests other c).1 request).2
    rw [read] at accepted
    cases accepted
  | ok c =>
    have request := (requests msg c).2 ⟨rfl, read⟩
    by_cases unused : key.privateKey.q < mode.leaves
    · rw [sound.sign read unused, granted]
      exact .signed request unused
    · rw [sign_of_exhausted read unused, exhausted]
      exact .exhausted request unused

theorem requests_sign_iff {msg other : Bytes} {randomizer : Option Bytes} {c : Option (Octets mode.n)} :
    key.Requests (.sign msg randomizer) other c ↔
      other = msg ∧ mode.readRandomizer randomizer = .ok c := by
  constructor
  · rintro ⟨same⟩
    exact ⟨rfl, Mode.readRandomizer_eq_ok_iff.2 same⟩
  · rintro ⟨rfl, read⟩
    exact .sign (Mode.readRandomizer_eq_ok_iff.1 read)

theorem requests_signGeneric_iff {msg other : Bytes} {c : Option (Octets mode.n)} :
    key.Requests (.signGeneric msg) other c ↔ other = msg ∧ mode.readRandomizer none = .ok c := by
  constructor
  · rintro ⟨⟩
    exact ⟨rfl, rfl⟩
  · rintro ⟨rfl, read⟩
    cases read
    exact .signGeneric

theorem requests_signRandomized_iff {key : SigningKey mode} {source : FallibleSource}
    {drawn : Octets mode.n} (success : source mode.n = some drawn) {msg other : Bytes}
    {c : Option (Octets mode.n)} :
    Requests (.signing key) (.signRandomized source msg) other c ↔
      other = msg ∧ mode.readRandomizer (some drawn.bytes) = .ok c := by
  rw [Mode.readRandomizer_eq_ok_iff]
  constructor
  · intro request
    cases request with
    | signRandomized again =>
      rw [success] at again
      cases again
      exact ⟨rfl, rfl⟩
  · rintro ⟨rfl, same⟩
    obtain ⟨c, rfl, bytes⟩ := Option.map_eq_some_iff.1 same.symm
    rw [Octets.ext bytes]
    exact .signRandomized success

theorem Sound.perform_outcome (sound : key.Sound) (op : Operation) :
    Outcome key op (key.perform op).value.1 (key.perform op).value.2 := by
  -- The three ways to sign share one argument; no other operation looks at the counter.
  cases op with
  | sign msg randomizer =>
    rw [perform_sign]
    exact sound.outcome_sign .ofSign (fun _ _ => requests_sign_iff) (fun _ => rfl) (fun _ => trivial) rfl
  | signGeneric msg =>
    rw [perform_signGeneric]
    exact sound.outcome_sign (fun signed => .ofGeneric (withhold signed))
      (fun _ _ => requests_signGeneric_iff) (fun _ => rfl) (fun _ => trivial) rfl
  | signRandomized source msg =>
    cases key with
    | signing key =>
      cases drawn : source mode.n with
      | some c =>
        rw [perform_signRandomized drawn]
        exact sound.outcome_sign (fun signed => .ofGeneric (withhold signed))
          (fun _ _ => requests_signRandomized_iff drawn) (fun _ => rfl) (fun _ => trivial) rfl
      | none =>
        simp only [perform, performSigning, SigningKey.signRandomized, drawn]
        refine .refused ?_ trivial
        intro _ _ request
        cases request with
        | signRandomized success =>
          rw [drawn] at success
          cases success
    | shared key => exact .idle nofun rfl id rfl sound
  | precompute =>
    cases key with
    | signing key =>
      have found : key.precompute.value = key.built :=
        congrArg Prod.snd (SigningKey.Sound.value_withTree sound)
      simp only [perform, performSigning, Logged.value_bind, found]
      exact .idle nofun rfl id rfl (SigningKey.Sound.built sound)
    | shared key => exact .idle nofun rfl id rfl sound
  | publicKey =>
    cases key with
    | signing key =>
      simp only [perform, performSigning, SigningKey.publicKey, Logged.value_bind,
        SigningKey.Sound.value_withTree sound]
      exact .idle nofun rfl id rfl (SigningKey.Sound.built sound)
    | shared key => exact .idle nofun rfl id rfl sound
  | save => cases key <;> exact .idle nofun rfl id rfl sound
  | display => cases key <;> exact .idle nofun rfl id rfl sound
  | share =>
    cases key with
    | signing key =>
      have shared := SigningKey.Sound.value_share sound
      simp only [perform, performSigning, Logged.value_bind, shared]
      exact .idle nofun rfl id rfl ⟨SigningKey.Sound.inRange sound, rfl⟩
    | shared key => exact .idle nofun rfl id rfl sound
  | unshare =>
    cases key with
    | signing key => exact .idle nofun rfl id rfl sound
    | shared key => exact .idle nofun rfl id rfl (SharedKey.Sound.unshare sound)

-- Only the bytes of the key itself are ever given out.
theorem bytes_of_perform {op : Operation} {b : Bytes} (saved : (key.perform op).value.1 = .bytes b) :
    b = key.privateKey.encode := by
  cases op with
  | sign msg randomizer =>
    rw [perform_sign] at saved
    exact absurd saved (Answer.ofSign_ne_bytes _)
  | signGeneric msg =>
    rw [perform_signGeneric] at saved
    exact absurd saved (Answer.ofGeneric_ne_bytes _)
  | signRandomized source msg =>
    cases key with
    | signing key =>
      cases drawn : source mode.n with
      | some c =>
        rw [perform_signRandomized drawn] at saved
        exact absurd saved (Answer.ofGeneric_ne_bytes _)
      | none =>
        simp only [perform, performSigning, SigningKey.signRandomized, drawn] at saved
        cases saved
    | shared key => cases saved
  | save =>
    cases key with
    | signing key => cases saved; rfl
    | shared key => cases saved
  | precompute | publicKey | display | share | unshare => cases key <;> cases saved

/-! ## Runs -/

theorem Sound.advance (sound : key.Sound) (unused : key.privateKey.q < mode.leaves) :
    key.advance.Sound := by
  cases key with
  | signing key => exact SigningKey.Sound.advance unused
  | shared key => exact SharedKey.Sound.advance sound unused

@[simp] theorem privateKey_advance : key.advance.privateKey = key.privateKey.next := by
  cases key <;> rfl

theorem Requests.advance {op : Operation} {msg : Bytes} {c : Option (Octets mode.n)}
    (request : key.Requests op msg c) : key.advance.Requests op msg c := by
  cases request with
  | sign read => exact .sign read
  | signGeneric => exact .signGeneric
  | signRandomized drawn => exact .signRandomized drawn

namespace Outcome

variable {op : Operation} {answer : Answer mode} {after : Key mode}

theorem sound (outcome : Outcome key op answer after) (sound : key.Sound) : after.Sound := by
  cases outcome with
  | signed _ unused => exact sound.advance unused
  | exhausted | refused => exact sound
  | idle _ _ _ _ sound => exact sound

theorem id_eq (outcome : Outcome key op answer after) : after.privateKey.id = key.privateKey.id := by
  cases outcome with
  | signed => rw [privateKey_advance]; rfl
  | exhausted | refused => rfl
  | idle _ _ _ same => rw [same]

theorem seed_eq (outcome : Outcome key op answer after) :
    after.privateKey.seed = key.privateKey.seed := by
  cases outcome with
  | signed => rw [privateKey_advance]; rfl
  | exhausted | refused => rfl
  | idle _ _ _ same => rw [same]

-- Only a request to sign changes the lasting part.
theorem privateKey_eq (outcome : Outcome key op answer after)
    (noRequest : ∀ msg c, ¬ key.Requests op msg c) : after.privateKey = key.privateKey := by
  cases outcome with
  | signed request => exact absurd request (noRequest _ _)
  | exhausted | refused => rfl
  | idle _ _ _ same => exact same

theorem of_signature (outcome : Outcome key op answer after) {s : Signature mode}
    (signed : answer = .signature s) : ∃ msg c, ∃ unused : key.privateKey.q < mode.leaves,
      key.Requests op msg c ∧ s = key.privateKey.signNext unused msg c := by
  cases outcome with
  | signed request unused =>
    cases signed
    exact ⟨_, _, unused, request, rfl⟩
  | exhausted =>
    have failed : (op.exhausted : Answer mode).IsError := op.isError_exhausted
    rw [signed] at failed
    exact failed.elim
  | refused _ error =>
    rw [signed] at error
    exact error.elim
  | idle _ silent =>
    rw [signed] at silent
    cases silent

theorem granted_iff (outcome : Outcome key op answer after) {msg : Bytes}
    {c : Option (Octets mode.n)} (request : key.Requests op msg c) :
    (∃ s, answer = .signature s) ↔ key.privateKey.q < mode.leaves := by
  constructor
  · rintro ⟨s, signed⟩
    obtain ⟨_, _, unused, _⟩ := outcome.of_signature signed
    exact unused
  · intro unused
    cases outcome with
    | signed => exact ⟨_, rfl⟩
    | exhausted _ used => exact absurd unused used
    | refused noRequest | idle noRequest => exact absurd request (noRequest msg c)

-- A request is granted with the next leaf.
theorem granted_eq (outcome : Outcome key op answer after) {msg : Bytes}
    {c : Option (Octets mode.n)} (request : key.Requests op msg c)
    (unused : key.privateKey.q < mode.leaves) :
    ∃ s, s.leaf.index = key.privateKey.q ∧ answer = .signature s ∧ after = key.advance := by
  cases outcome with
  | signed => exact ⟨_, rfl, rfl, rfl⟩
  | exhausted _ used => exact absurd unused used
  | refused noRequest | idle noRequest => exact absurd request (noRequest msg c)

theorem exhausted_eq (outcome : Outcome key op answer after) {msg : Bytes}
    {c : Option (Octets mode.n)} (request : key.Requests op msg c)
    (used : ¬ key.privateKey.q < mode.leaves) : (answer, after) = (op.exhausted, key) := by
  cases outcome with
  | signed _ unused => exact absurd unused used
  | exhausted => rfl
  | refused noRequest | idle noRequest => exact absurd request (noRequest msg c)

theorem unchanged (outcome : Outcome key op answer after) (error : answer.IsError) :
    after = key := by
  cases outcome with
  | signed => exact error.elim
  | exhausted | refused => rfl
  | idle _ _ noError => exact absurd error noError

end Outcome

theorem run_cons (op : Operation) (ops : List Operation) :
    (key.run (op :: ops)).value =
      ((key.perform op).value.1 :: ((key.perform op).value.2.run ops).value.1,
        ((key.perform op).value.2.run ops).value.2) := rfl

end Key

end HashSig.ManyTime
