import HashSig.Proofs.Acceptance
import HashSig.Proofs.Threads

/-! Threads at a shared key and one caller at a signing key.

Calls served one after the other change nothing but the counter
(`PrivateKey.serve`). Whatever the threads do, each result that a thread has, and
the one that it is sure to have next, is what serving the settled calls in their
order gives (`System.Agrees`): only the step that settles a call moves the counter,
and it moves it as serving the call does.
-/

set_option autoImplicit false

namespace HashSig.ManyTime

variable {mode : Mode} {ι : Type}

/-! ## One call after the other -/

namespace PrivateKey

/-- What a call gives, and the key afterwards. -/
def serve (key : PrivateKey mode) (call : Call) : Result mode × PrivateKey mode :=
  match mode.readRandomizer call.randomizer with
  | .error e => (.error e, key)
  | .ok c =>
    if unused : key.q < mode.leaves then (.ok (key.signNext unused call.msg c), key.next)
    else (.error .keyExhausted, key)

/-- One call after the other. Each is marked with the thread it comes from. -/
def serveAll (key : PrivateKey mode) :
    List (ι × Call) → List (ι × Call × Result mode) × PrivateKey mode
  | [] => ([], key)
  | (i, call) :: order =>
    let rest := (key.serve call).2.serveAll order
    ((i, call, (key.serve call).1) :: rest.1, rest.2)

variable {key : PrivateKey mode} {call : Call}

theorem serve_of_refused {e : Error} (read : mode.readRandomizer call.randomizer = .error e) :
    key.serve call = (.error e, key) := by
  rw [serve, read]

theorem serve_of_exhausted {c : Option (Octets mode.n)}
    (read : mode.readRandomizer call.randomizer = .ok c) (used : ¬ key.q < mode.leaves) :
    key.serve call = (.error .keyExhausted, key) := by
  simp only [serve, read, dif_neg used]

theorem serve_of_unused {c : Option (Octets mode.n)}
    (read : mode.readRandomizer call.randomizer = .ok c) (unused : key.q < mode.leaves) :
    key.serve call = (.ok (key.signNext unused call.msg c), key.next) := by
  simp only [serve, read, dif_pos unused]

theorem serveAll_append (order rest : List (ι × Call)) :
    key.serveAll (order ++ rest) =
      ((key.serveAll order).1 ++ ((key.serveAll order).2.serveAll rest).1,
        ((key.serveAll order).2.serveAll rest).2) := by
  induction order generalizing key with
  | nil => rfl
  | cons first order ih => rw [List.cons_append, serveAll, ih]; rfl

theorem map_serveAll (order : List (ι × Call)) :
    (key.serveAll order).1.map (fun e => (e.1, e.2.1)) = order := by
  induction order generalizing key with
  | nil => rfl
  | cons first order ih => exact congrArg (first :: ·) ih

end PrivateKey

def SigningKey.signEach (key : SigningKey mode) :
    List (ι × Call) → List (ι × Call × Result mode) × SigningKey mode
  | [] => ([], key)
  | (i, call) :: order =>
    let signed := (key.sign call.msg call.randomizer).value
    let rest := signed.2.signEach order
    ((i, call, signed.1) :: rest.1, rest.2)

namespace SigningKey

variable {key : SigningKey mode}

theorem Sound.sign_eq_serve (sound : key.Sound) (call : Call) :
    (key.sign call.msg call.randomizer).value.1 = (key.serve call).1 ∧
      (key.sign call.msg call.randomizer).value.2.toPrivateKey = (key.serve call).2 ∧
      (key.sign call.msg call.randomizer).value.2.Sound := by
  cases read : mode.readRandomizer call.randomizer with
  | error e =>
    rw [value_sign_of_refused read, PrivateKey.serve_of_refused read]
    exact ⟨rfl, rfl, sound⟩
  | ok c =>
    by_cases unused : key.q < mode.leaves
    · rw [sound.value_sign read unused, PrivateKey.serve_of_unused read unused]
      exact ⟨rfl, rfl, Sound.advance unused⟩
    · rw [value_sign_of_exhausted read unused, PrivateKey.serve_of_exhausted read unused]
      exact ⟨rfl, rfl, sound⟩

theorem Sound.signEach_eq_serveAll (sound : key.Sound) (order : List (ι × Call)) :
    (key.signEach order).1 = (key.serveAll order).1 ∧
      (key.signEach order).2.toPrivateKey = (key.serveAll order).2 := by
  induction order generalizing key with
  | nil => exact ⟨rfl, rfl⟩
  | cons first order ih =>
    obtain ⟨i, call⟩ := first
    obtain ⟨result, after, afterSound⟩ := sound.sign_eq_serve call
    obtain ⟨results, last⟩ := ih afterSound
    rw [after] at results last
    rw [signEach, PrivateKey.serveAll, result, results]
    exact ⟨rfl, last⟩

end SigningKey

/-! ## Threads -/

/-- The thread's results, and the one that it is sure to have next, are those of its
settled calls, and the calls that it has still to make are the others. A counter
that it has seen is not ahead of the key's. -/
inductive Thread.Agrees (first : PrivateKey mode) (counter : UInt32) (calls : List Call) :
    List (Call × Result mode) → Thread mode → Prop where
  | idle {settled : List (Call × Result mode)} {waiting : List Call}
      (all : calls = settled.map Prod.fst ++ waiting) :
      Agrees first counter calls settled ⟨waiting, .idle, settled.map Prod.snd⟩
  | checked {settled : List (Call × Result mode)} {call : Call} {waiting : List Call}
      {c : Option (Octets mode.n)} (all : calls = settled.map Prod.fst ++ call :: waiting)
      (read : mode.readRandomizer call.randomizer = .ok c) :
      Agrees first counter calls settled ⟨call :: waiting, .checked c, settled.map Prod.snd⟩
  | loaded {settled : List (Call × Result mode)} {call : Call} {waiting : List Call}
      {c : Option (Octets mode.n)} {seen : UInt32}
      (all : calls = settled.map Prod.fst ++ call :: waiting)
      (read : mode.readRandomizer call.randomizer = .ok c) (behind : seen ≤ counter) :
      Agrees first counter calls settled ⟨call :: waiting, .loaded c seen, settled.map Prod.snd⟩
  | reserved {settled : List (Call × Result mode)} {call : Call} {waiting : List Call}
      {c : Option (Octets mode.n)} {leaf : Leaf mode}
      (all : calls = settled.map Prod.fst ++ call :: waiting) :
      Agrees first counter calls
        (settled ++ [(call, .ok (first.signLeaf first.merkleTree leaf call.msg c))])
        ⟨call :: waiting, .reserved c leaf, settled.map Prod.snd⟩

theorem PrivateKey.signLeaf_congr {key first : PrivateKey mode} (id : key.id = first.id)
    (seed : key.seed = first.seed) (leaf : Leaf mode) (msg : Bytes) (c : Option (Octets mode.n)) :
    key.signLeaf key.merkleTree leaf msg c = first.signLeaf first.merkleTree leaf msg c := by
  obtain ⟨q, keyId, keySeed⟩ := key
  cases id
  cases seed
  rfl

theorem SharedKey.reserve_cases {key after : SharedKey mode} {reserved : Except Error (Leaf mode)}
    (done : key.reserve.value = (reserved, after)) :
    (∃ unused : key.q < mode.leaves, reserved = .ok ⟨key.q, unused⟩ ∧ after = key.advance) ∨
      (¬ key.q < mode.leaves ∧ reserved = .error .keyExhausted ∧ after = key) := by
  unfold reserve at done
  split at done
  · next unused =>
    cases done
    exact .inl ⟨unused, rfl, rfl⟩
  · next used =>
    cases done
    exact .inr ⟨used, rfl, rfl⟩

namespace Thread

variable {first : PrivateKey mode} {counter : UInt32} {calls waiting : List Call}
  {own : List (Call × Result mode)} {call : Call}

theorem Agrees.settle (all : calls = own.map Prod.fst ++ call :: waiting) (result : Result mode) :
    Agrees first counter calls (own ++ [(call, result)])
      ⟨waiting, .idle, own.map Prod.snd ++ [result]⟩ := by
  have settled : calls = (own ++ [(call, result)]).map Prod.fst ++ waiting := by
    rw [all, List.map_append, List.append_assoc]
    rfl
  have agrees : Agrees first counter calls (own ++ [(call, result)])
      ⟨waiting, .idle, (own ++ [(call, result)]).map Prod.snd⟩ := .idle settled
  rwa [List.map_append] at agrees

-- The counter may move while the thread waits.
theorem Agrees.mono {later : UInt32} {thread : Thread mode} (forward : counter ≤ later)
    (agrees : thread.Agrees first counter calls own) : thread.Agrees first later calls own := by
  cases agrees with
  | idle all => exact .idle all
  | checked all read => exact .checked all read
  | loaded all read behind => exact .loaded all read (UInt32.le_trans behind forward)
  | reserved all => exact .reserved all

structure Kept (first : PrivateKey mode) (calls : List Call) (own : List (Call × Result mode))
    (key : SharedKey mode) (settled : Option Call) (after : SharedKey mode) (thread : Thread mode) :
    Prop where
  agrees : thread.Agrees first after.q calls
    (own ++ settled.toList.map fun call => (call, (key.serve call).1))
  served : after.toPrivateKey = settled.elim key.toPrivateKey fun call => (key.serve call).2
  sound : after.Sound
  id_eq : after.id = key.id
  seed_eq : after.seed = key.seed
  forward : key.q ≤ after.q

variable {key after : SharedKey mode} {thread : Thread mode}

theorem Kept.of_unsettled (sound : key.Sound) (agrees : thread.Agrees first key.q calls own) :
    Kept first calls own key none key thread := by
  refine ⟨?_, rfl, sound, rfl, rfl, UInt32.le_refl _⟩
  rw [Option.toList_none, List.map_nil, List.append_nil]
  exact agrees

theorem Kept.of_returned (sound : key.Sound) (all : calls = own.map Prod.fst ++ call :: waiting)
    {result : Result mode} (served : key.serve call = (result, key.toPrivateKey)) :
    Kept first calls own key (some call) key ⟨waiting, .idle, own.map Prod.snd ++ [result]⟩ := by
  refine ⟨?_, (congrArg Prod.snd served).symm, sound, rfl, rfl, UInt32.le_refl _⟩
  rw [Option.toList_some, List.map_singleton, served]
  exact .settle all result

theorem Kept.of_reserved (sound : key.Sound) (id : key.id = first.id) (seed : key.seed = first.seed)
    (all : calls = own.map Prod.fst ++ call :: waiting) {c : Option (Octets mode.n)}
    (read : mode.readRandomizer call.randomizer = .ok c) (unused : key.q < mode.leaves) :
    Kept first calls own key (some call) key.advance
      ⟨call :: waiting, .reserved c ⟨key.q, unused⟩, own.map Prod.snd⟩ := by
  have served := key.toPrivateKey.serve_of_unused read unused
  refine ⟨?_, (congrArg Prod.snd served).symm, sound.advance unused, rfl, rfl, ?_⟩
  · rw [Option.toList_some, List.map_singleton, served, PrivateKey.signNext,
      PrivateKey.signLeaf_congr id seed]
    exact .reserved all
  · rw [UInt32.le_iff_toNat_le, SharedKey.advance, PrivateKey.toNat_next unused]
    exact Nat.le_succ _

-- Only a step that settles a call moves the counter, and then as serving the call
-- does.
theorem Step.kept {next : Thread mode} {settled : Option Call}
    (step : Step key thread settled after next) (sound : key.Sound) (id : key.id = first.id)
    (seed : key.seed = first.seed) (agrees : thread.Agrees first key.q calls own) :
    Kept first calls own key settled after next := by
  cases step with
  | reject read =>
    cases agrees with
    | idle all => exact .of_returned sound all (PrivateKey.serve_of_refused read)
  | accept read =>
    cases agrees with
    | idle all => exact .of_unsettled sound (.checked all read)
  | update reserved =>
    cases agrees with
    | checked all read =>
      -- The indivisible update is where the call is served.
      obtain ⟨unused, same, rfl⟩ | ⟨-, failed, -⟩ := SharedKey.reserve_cases reserved
      · cases same
        exact .of_reserved sound id seed all read unused
      · cases failed
  | refuse refused =>
    cases agrees with
    | checked all read =>
      obtain ⟨_, succeeded, _⟩ | ⟨used, same, rfl⟩ := SharedKey.reserve_cases refused
      · cases succeeded
      · cases same
        exact .of_returned sound all (PrivateKey.serve_of_exhausted read used)
  | load =>
    cases agrees with
    | checked all read => exact .of_unsettled sound (.loaded all read (UInt32.le_refl _))
  | exchange unused unmoved =>
    cases agrees with
    | loaded all read =>
      subst unmoved
      exact .of_reserved sound id seed all read unused
  | retry =>
    cases agrees with
    | loaded all read => exact .of_unsettled sound (.loaded all read (UInt32.le_refl _))
  | giveUp used =>
    cases agrees with
    | loaded all read behind =>
      -- The counter never goes back, so there is still no leaf left.
      have full : ¬ key.q < mode.leaves := fun unused => used (UInt32.lt_of_le_of_lt behind unused)
      exact .of_returned sound all (PrivateKey.serve_of_exhausted read full)
  | sign =>
    cases agrees with
    | reserved all =>
      -- The counter may have moved since, but signing does not look at it.
      rw [sound.cached, PrivateKey.signLeaf_congr id seed]
      exact .of_unsettled sound (.settle all _)

end Thread

/-! ## The system -/

namespace System

variable {count : Nat}

def share (first : PrivateKey mode) (order : List (Fin count × Call)) (i : Fin count) :
    List (Call × Result mode) :=
  ((first.serveAll order).1.filter fun e => e.1 = i).map Prod.snd

/-- The system is where serving the settled calls in their order leads. -/
structure Agrees (first : PrivateKey mode) (calls : Fin count → List Call)
    (order : List (Fin count × Call)) (sys : System mode count) : Prop where
  sound : sys.key.Sound
  id_eq : sys.key.id = first.id
  seed_eq : sys.key.seed = first.seed
  served : (first.serveAll order).2 = sys.key.toPrivateKey
  threads : ∀ i, (sys.threads i).Agrees first sys.key.q (calls i) (share first order i)

-- A call that is settled is added to the share of its thread.
theorem share_append {first key : PrivateKey mode} {order : List (Fin count × Call)}
    (served : (first.serveAll order).2 = key) (i j : Fin count) (settled : Option Call) :
    share first (order ++ settled.toList.map (i, ·)) j =
      share first order j ++
        if i = j then settled.toList.map fun call => (call, (key.serve call).1) else [] := by
  rw [share, PrivateKey.serveAll_append, served, List.filter_append, List.map_append, ← share]
  congr 1
  cases settled with
  | none => split <;> rfl
  | some call =>
    by_cases same : i = j
    · simp [same, PrivateKey.serveAll]
    · simp [same, PrivateKey.serveAll]

theorem Agrees.start {key : SharedKey mode} (sound : key.Sound) (calls : Fin count → List Call) :
    (start key calls).Agrees key.toPrivateKey calls [] :=
  ⟨sound, rfl, rfl, rfl, fun _ => .idle rfl⟩

theorem Agrees.step {first : PrivateKey mode} {calls : Fin count → List Call}
    {order : List (Fin count × Call)} {sys : System mode count}
    (agrees : sys.Agrees first calls order) {i : Fin count} {settled : Option Call}
    {key : SharedKey mode} {thread : Thread mode}
    (taken : Thread.Step sys.key (sys.threads i) settled key thread) :
    (sys.advance i key thread).Agrees first calls (order ++ settled.toList.map (i, ·)) := by
  have kept := taken.kept agrees.sound agrees.id_eq agrees.seed_eq (agrees.threads i)
  refine ⟨kept.sound, kept.id_eq.trans agrees.id_eq, kept.seed_eq.trans agrees.seed_eq, ?_, ?_⟩
  · rw [PrivateKey.serveAll_append, agrees.served]
    cases settled with
    | none => exact kept.served.symm
    | some call => exact kept.served.symm
  · intro j
    rw [share_append agrees.served]
    by_cases same : i = j
    · subst same
      rw [if_pos rfl, threads_advance_self]
      exact kept.agrees
    · rw [if_neg same, List.append_nil, threads_advance_of_ne sys (Ne.symm same)]
      exact (agrees.threads j).mono kept.forward

theorem Steps.agrees {key : SharedKey mode} (sound : key.Sound) {calls : Fin count → List Call}
    {order : List (Fin count × Call)} {sys : System mode count}
    (steps : Steps (start key calls) order sys) : sys.Agrees key.toPrivateKey calls order := by
  induction steps with
  | none => exact .start sound calls
  | step _ taken ih => exact ih.step taken

end System

end HashSig.ManyTime
